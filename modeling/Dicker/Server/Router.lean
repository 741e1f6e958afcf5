import Dicker.Lib.Chain
import Dicker.Server.Http
import Dicker.Server.TokenStore

/-! Routes and middleware of the HTTP endpoints (server/router.cxx, server/middleware/auth.cxx). A
middleware is a program that may call `next`; which calls it makes of its own is left open. -/

namespace Dicker.Server
open Lib Program

/-! ## Contexts -/

/-- `HttpContext` without the request and the connection, which are references bound once. -/
structure HttpContext where
  param : Bytes := []
  status : ℤ := 200
  type : Bytes := ascii "text/plain; charset=utf-8"
  body : Bytes := []
  headers : List (Bytes × Bytes) := []
  respond : Bool := true

def HttpContext.set (ctx : HttpContext) (name value : Bytes) : HttpContext :=
  { ctx with headers := ctx.headers ++ [(name, value)] }

def HttpRequest.header (request : HttpRequest) (lowerName : Bytes) : Option Bytes :=
  request.headers.lookup lowerName

def reasonPhrase (status : ℤ) : String :=
  match status with
  | 200 => "OK"
  | 201 => "Created"
  | 204 => "No Content"
  | 400 => "Bad Request"
  | 401 => "Unauthorized"
  | 403 => "Forbidden"
  | 404 => "Not Found"
  | 405 => "Method Not Allowed"
  | 500 => "Internal Server Error"
  | _ =>
    if 200 ≤ status ∧ status < 300 then "OK"
    else if 300 ≤ status ∧ status < 400 then "Redirect"
    else if 400 ≤ status ∧ status < 500 then "Client Error"
    else "Server Error"

/-! ## Routes -/

inductive HttpHandler (H : Type) where
  | root
  | uploadsList
  | uploadsDownload
  | user (handler : H)

section
variable (H E : Type) (A : E → Type)

inductive HttpOp where
  /-- `TokenStore::load` opens the token file -/
  | readTokens
  | handle (handler : HttpHandler H) (ctx : HttpContext)
  /-- whatever else a middleware does -/
  | act (e : E)
  | sendHttpSimple (status : ℤ) (reason type body : Bytes) (extra : List (Bytes × Bytes))

def HttpAns : HttpOp H E → Type
  | .readTokens => Option Bytes
  | .handle .. => HttpContext
  | .act e => A e
  | .sendHttpSimple .. => Unit

abbrev HttpProgram (α : Type) := Program (HttpOp H E) (HttpAns H E A) α

/-- `mw::require_auth`, or another function of the same type. -/
inductive Middleware where
  | requireAuth
  | other (run : HttpRequest → HttpContext →
      Program (StageOp HttpContext E) (StageAns HttpContext A) HttpContext)

inductive Match where
  | exact
  | prefixed

structure Route where
  method : Bytes
  matching : Match
  path : Bytes
  middleware : List (Middleware E A)
  handler : HttpHandler H

structure Router where
  routes : List (Route H E A) := []
  builtins : List (Route H E A) := []

/-- What `dispatch` decides before anything runs. -/
inductive Selection where
  | route (route : Route H E A)
  | methodNotAllowed
  | notFound

end

variable {H E : Type} {A : E → Type}

def pathMatches (route : Route H E A) (path : Bytes) : Bool :=
  match route.matching with
  | .exact => path == route.path
  | .prefixed => route.path.length ≤ path.length && path.take route.path.length == route.path

/-- The loop over one list of routes; the flag is `path_matched`. -/
def find (request : HttpRequest) : List (Route H E A) → Bool → Option (Route H E A) × Bool
  | [], pathMatched => (none, pathMatched)
  | route :: routes, pathMatched =>
    if pathMatches route request.path = false then find request routes pathMatched
    else if request.method = route.method then (some route, true)
    else find request routes true

def addBuiltinRoutes (router : Router H E A) : Router H E A :=
  { router with builtins := router.builtins ++ [
      ⟨ascii "GET", .exact, ascii "/", [], .root⟩,
      ⟨ascii "GET", .exact, ascii "/uploads", [.requireAuth], .uploadsList⟩,
      ⟨ascii "GET", .prefixed, ascii "/uploads/", [.requireAuth], .uploadsDownload⟩] }

def Router.add (router : Router H E A) (route : Route H E A) : Router H E A :=
  { router with routes := router.routes ++ [route] }

def serverRouter (defaultRoutes : Bool) (registered : List (Route H E A)) : Router H E A :=
  registered.foldl Router.add (if defaultRoutes then addBuiltinRoutes {} else {})

def Router.lookup (router : Router H E A) (request : HttpRequest) : Selection H E A :=
  let (matched, pathMatched) := find request router.routes false
  let (matched, pathMatched) :=
    match matched with
    | none => find request router.builtins pathMatched
    | some _ => (matched, pathMatched)
  match matched with
  | some route => .route route
  | none => if pathMatched then .methodNotAllowed else .notFound

/-! ## Dispatch -/

def bearer : Bytes := ascii "Bearer "

def sendHttpSimple (status : ℤ) (reason type body : Bytes) (extra : List (Bytes × Bytes)) :
    HttpProgram H E A Unit :=
  .call (.sendHttpSimple status reason type body extra) fun _ => .ret ()

section
variable (json : JsonLibrary) (aes : AesGcm)

def authorized (request : HttpRequest) : HttpProgram H E A Bool :=
  match request.header (ascii "authorization") with
  | none => .ret false
  | some auth =>
    if auth.length ≤ bearer.length ∨ auth.take bearer.length ≠ bearer then .ret false
    else .call .readTokens fun file =>
      .ret (TokenStore.verifyToken json aes file (auth.drop bearer.length))

def requireAuth (request : HttpRequest) (ctx : HttpContext)
    (next : HttpContext → HttpProgram H E A HttpContext) :
    HttpProgram H E A HttpContext := do
  if !(← authorized json aes request) then
    let ctx := { ctx with
      status := 401
      type := ascii "text/plain; charset=utf-8"
      body := ascii "unauthorized\n" }
    return ctx.set (ascii "WWW-Authenticate") (ascii "Bearer")
  next ctx

def Middleware.run (request : HttpRequest) (ctx : HttpContext)
    (next : HttpContext → HttpProgram H E A HttpContext) :
    Middleware E A → HttpProgram H E A HttpContext
  | .requireAuth => Server.requireAuth json aes request ctx next
  | .other run => through HttpOp.act next (run request ctx)

/-- `Next::operator()` -/
def Route.next (route : Route H E A) (request : HttpRequest) (index : ℕ) (ctx : HttpContext) :
    HttpProgram H E A HttpContext :=
  if h : index < route.middleware.length then
    (route.middleware[index]).run json aes request ctx fun ctx =>
      Route.next route request (index + 1) ctx
  else .call (.handle route.handler ctx) .ret
termination_by route.middleware.length - index

def Route.param (route : Route H E A) (request : HttpRequest) : Bytes :=
  match route.matching with
  | .exact => []
  | .prefixed => request.path.drop route.path.length

/-- The rest of `dispatch`, once a route is found. -/
def Route.serve (route : Route H E A) (request : HttpRequest) : HttpProgram H E A Unit := do
  let ctx ← route.next json aes request 0 { param := route.param request }
  if ctx.respond then
    sendHttpSimple ctx.status (ascii (reasonPhrase ctx.status)) ctx.type ctx.body ctx.headers

def Router.dispatch (router : Router H E A) (request : HttpRequest) : HttpProgram H E A Unit :=
  match router.lookup request with
  | .route route => route.serve json aes request
  | .methodNotAllowed =>
    sendHttpSimple 405 (ascii "Method Not Allowed") (ascii "text/plain; charset=utf-8")
      (ascii "method not allowed\n") []
  | .notFound =>
    sendHttpSimple 404 (ascii "Not Found") (ascii "text/plain; charset=utf-8")
      (ascii "not found\n") []

end

/-! ## Which route is selected -/

def Route.matches (request : HttpRequest) (route : Route H E A) : Bool :=
  pathMatches route request.path && request.method == route.method

theorem find_eq (request : HttpRequest) (routes : List (Route H E A)) (pathMatched : Bool) :
    (find request routes pathMatched).1 = routes.find? (Route.matches request) ∧
      ((find request routes pathMatched).1 = none →
        (find request routes pathMatched).2 =
          (pathMatched || routes.any (pathMatches · request.path))) := by
  induction routes generalizing pathMatched with
  | nil => exact ⟨rfl, fun _ => (Bool.or_false _).symm⟩
  | cons route routes ih =>
    rw [find, List.find?_cons, Route.matches, List.any_cons]
    cases hpath : pathMatches route request.path with
    | false => exact ih pathMatched
    | true =>
      by_cases hmethod : request.method = route.method
      · simp [hmethod]
      · have hother : (request.method == route.method) = false := beq_false_of_ne hmethod
        simpa [hmethod, hother] using ih true

def Router.all (router : Router H E A) : List (Route H E A) := router.routes ++ router.builtins

theorem lookup_eq (router : Router H E A) (request : HttpRequest) :
    router.lookup request = match router.all.find? (Route.matches request) with
      | some route => .route route
      | none =>
        if router.all.any (pathMatches · request.path) then .methodNotAllowed else .notFound := by
  have huser := find_eq request router.routes false
  unfold Router.lookup Router.all
  rw [List.find?_append, List.any_append]
  generalize find request router.routes false = found at huser ⊢
  obtain ⟨matched, flag⟩ := found
  obtain ⟨hmatched, hflag⟩ := huser
  rw [← show matched = router.routes.find? (Route.matches request) from hmatched]
  cases matched with
  | some route => rfl
  | none =>
    have hbuiltin := find_eq request router.builtins flag
    dsimp only
    generalize find request router.builtins flag = found at hbuiltin ⊢
    obtain ⟨matched', flag'⟩ := found
    obtain ⟨hmatched', hflag'⟩ := hbuiltin
    rw [Option.none_or, ← show matched' =
      router.builtins.find? (Route.matches request) from hmatched']
    cases matched' with
    | some route => rfl
    | none =>
      have hflags : flag' = (router.routes.any (pathMatches · request.path) ||
          router.builtins.any (pathMatches · request.path)) := by
        rw [show flag' = _ from hflag' rfl, show flag = _ from hflag rfl, Bool.false_or]
      rw [hflags]

variable {router : Router H E A} {route : Route H E A} {request : HttpRequest}

theorem lookup_route_iff :
    router.lookup request = .route route ↔ router.all.find? (Route.matches request) =
      some route := by
  rw [lookup_eq]
  rcases router.all.find? (Route.matches request) with - | r
  · dsimp only
    split_ifs <;> simp
  · simp

theorem Route.matches_path (h : route.matches request = true) :
    pathMatches route request.path = true := (Bool.and_eq_true_iff.mp h).1

theorem lookup_methodNotAllowed_iff :
    router.lookup request = .methodNotAllowed ↔
      (∀ route ∈ router.all, route.matches request = false) ∧
      ∃ route ∈ router.all, pathMatches route request.path = true := by
  rw [lookup_eq]
  rcases hfind : router.all.find? (Route.matches request) with - | r
  · have hnone : ∀ route ∈ router.all, route.matches request = false := by simpa using hfind
    dsimp only
    split_ifs with hany
    · exact ⟨fun _ => ⟨hnone, List.any_eq_true.mp hany⟩, fun _ => rfl⟩
    · exact ⟨nofun, fun h => absurd (List.any_eq_true.mpr h.2) hany⟩
  · refine ⟨nofun, fun h => ?_⟩
    have hno := h.1 r (List.mem_of_find?_eq_some hfind)
    rw [List.find?_some hfind] at hno
    cases hno

theorem lookup_notFound_iff :
    router.lookup request = .notFound ↔ ∀ route ∈ router.all,
      pathMatches route request.path = false := by
  rw [lookup_eq]
  rcases hfind : router.all.find? (Route.matches request) with - | r
  · dsimp only
    split_ifs with hany
    · refine ⟨nofun, fun h => ?_⟩
      obtain ⟨route, hmem, hpath⟩ := List.any_eq_true.mp hany
      rw [h route hmem] at hpath
      cases hpath
    · exact ⟨fun _ => by simpa using hany, fun _ => rfl⟩
  · refine ⟨nofun, fun h => ?_⟩
    have hno := h r (List.mem_of_find?_eq_some hfind)
    rw [Route.matches_path (List.find?_some hfind)] at hno
    cases hno

theorem foldl_add (registered : List (Route H E A)) (router : Router H E A) :
    registered.foldl Router.add router = { router with routes := router.routes ++ registered } := by
  induction registered generalizing router with
  | nil => rw [List.append_nil]; rfl
  | cons route registered ih =>
    rw [List.foldl_cons, ih, Router.add]
    simp only [List.append_assoc, List.singleton_append]

theorem serverRouter_all (defaultRoutes : Bool) (registered : List (Route H E A)) :
    (serverRouter defaultRoutes registered).all =
      registered ++ if defaultRoutes then (addBuiltinRoutes {} : Router H E A).builtins
        else [] := by
  unfold serverRouter Router.all
  rw [foldl_add]
  cases defaultRoutes <;> rfl

/-! ## What runs before a handler -/

section
variable (json : JsonLibrary) (aes : AesGcm)

abbrev HttpEntry (H E : Type) (A : E → Type) := Entry (HttpOp H E) (HttpAns H E A)

def Authorizes (request : HttpRequest) (file : Option Bytes) : Prop :=
  ∃ token tokens, request.header (ascii "authorization") = some (bearer ++ token) ∧
    TokenStore.load json aes file = .ok tokens ∧ token ∈ tokens

def Accepted (request : HttpRequest) (t : List (HttpEntry H E A)) : Prop :=
  ∃ before file after, t = before ++ .did .readTokens file :: after ∧
    (∀ file', .did .readTokens file' ∉ after) ∧ Authorizes json aes request file

def Protected (request : HttpRequest) (t : List (HttpEntry H E A)) : HttpOp H E → Prop
  | .handle .. => Accepted json aes request t
  | _ => True

variable {json aes} {t : List (HttpEntry H E A)}

theorem Accepted.snoc (h : Accepted json aes request t) {e : HttpEntry H E A}
    (he : ∀ file, e ≠ .did .readTokens file) : Accepted json aes request (t ++ [e]) := by
  obtain ⟨before, file, after, rfl, hlast, hauth⟩ := h
  refine ⟨before, file, after ++ [e], by simp, fun file' hmem => ?_, hauth⟩
  rcases List.mem_append.mp hmem with hmem | hmem
  · exact hlast file' hmem
  · exact he file' (List.mem_singleton.mp hmem).symm

theorem accepted_read (h : Authorizes json aes request file) :
    Accepted json aes request (t ++ [.did .readTokens file]) :=
  ⟨t, file, [], rfl, nofun, h⟩

theorem authorized_keeps {I : List (HttpEntry H E A) → HttpOp H E → Prop}
    {M : List (HttpEntry H E A) → Prop} {f : Bool → HttpProgram H E A HttpContext}
    (hread : ∀ t, I t .readTokens) (hno : ∀ t, (f false).Keeps I M t)
    (hyes : ∀ t, Accepted json aes request t → (f true).Keeps I M t) :
    (authorized json aes request >>= f).Keeps I M t := by
  unfold authorized
  rcases hheader : request.header (ascii "authorization") with - | auth
  · exact hno t
  · dsimp only
    split_ifs with hform
    · exact hno t
    · refine ⟨hread t, fun file => ?_⟩
      show (f (TokenStore.verifyToken json aes file (auth.drop bearer.length))).Keeps _ _ _
      rcases hverify : TokenStore.verifyToken json aes file (auth.drop bearer.length) with _ | _
      · exact hno _
      · obtain ⟨tokens, hload, hmem⟩ := TokenStore.verifyToken_iff.mp hverify
        have hfront : auth.take bearer.length = bearer := not_ne_iff.mp (not_or.mp hform).2
        have hsplit := List.take_append_drop bearer.length auth
        rw [hfront] at hsplit
        exact hyes _
          (accepted_read ⟨_, tokens, hheader.trans (congrArg some hsplit.symm), hload, hmem⟩)

variable (json aes) in
def chain (handler : HttpHandler H) (request : HttpRequest) :
    List (Middleware E A) → HttpContext → HttpProgram H E A HttpContext
  | [], ctx => .call (.handle handler ctx) .ret
  | m :: ms, ctx => m.run json aes request ctx (chain handler request ms)

theorem next_eq (route : Route H E A) (index : ℕ) (ctx : HttpContext) :
    route.next json aes request index ctx =
      chain json aes route.handler request (route.middleware.drop index) ctx := by
  induction hleft : route.middleware.length - index generalizing index ctx with
  | zero =>
    have hdone : ¬index < route.middleware.length := by omega
    rw [Route.next, dif_neg hdone, List.drop_eq_nil_of_le (Nat.not_lt.mp hdone)]
    rfl
  | succ left ih =>
    have hmore : index < route.middleware.length := by omega
    rw [Route.next, dif_pos hmore, List.drop_eq_getElem_cons hmore, chain]
    congr 1
    funext ctx
    exact ih (index + 1) ctx (by omega)

variable {ms : List (Middleware E A)} {handler : HttpHandler H}

theorem chain_accepted (hnone : .requireAuth ∉ ms) (ctx : HttpContext)
    (h : Accepted json aes request t) :
    (chain json aes handler request ms ctx).Keeps (Protected json aes request)
    (Accepted json aes request) t := by
  induction ms generalizing ctx t with
  | nil => exact ⟨h, fun _ => h.snoc nofun⟩
  | cons m ms ih =>
    have hrest : .requireAuth ∉ ms := fun hmem => hnone (List.mem_cons_of_mem _ hmem)
    cases m with
    | requireAuth => exact absurd List.mem_cons_self hnone
    | other run =>
      refine keeps_through HttpOp.act (fun c t h => ih hrest c h) (fun e t h => ?_)
        (fun z t h => ?_) (run request ctx) h
      · exact ⟨trivial, fun _ => h.snoc nofun⟩
      · exact h.snoc nofun

theorem chain_protected (hauth : .requireAuth ∈ ms) (ctx : HttpContext)
    (t : List (HttpEntry H E A)) :
    (chain json aes handler request ms ctx).Keeps (Protected json aes request)
    (fun _ => True) t := by
  induction ms generalizing ctx t with
  | nil => exact absurd hauth List.not_mem_nil
  | cons m ms ih =>
    cases m with
    | requireAuth =>
      refine authorized_keeps (fun _ => trivial) (fun t => trivial) fun t haccepted => ?_
      by_cases hlater : .requireAuth ∈ ms
      · exact ih hlater ctx t
      · exact (chain_accepted hlater ctx haccepted).weaken fun _ _ => trivial
    | other run =>
      have hrest : .requireAuth ∈ ms := by
        rcases List.mem_cons.mp hauth with heq | hmem
        · cases heq
        · exact hmem
      refine keeps_through HttpOp.act (fun c t _ => ih hrest c t) (fun e t _ => ?_)
        (fun z t _ => ?_) (run request ctx) trivial
      · exact ⟨trivial, fun _ => trivial⟩
      · trivial

def HandlerOf (route : Route H E A) : HttpOp H E → Prop
  | .handle handler _ => handler = route.handler
  | _ => True

theorem chain_handler (ctx : HttpContext) (t : List (HttpEntry H E A)) :
    (chain json aes route.handler request ms ctx).Keeps (fun _ => HandlerOf route)
    (fun _ => True) t := by
  induction ms generalizing ctx t with
  | nil => exact ⟨rfl, fun _ => trivial⟩
  | cons m ms ih =>
    cases m with
    | requireAuth =>
      exact authorized_keeps (fun _ => trivial) (fun t => trivial) fun t _ => ih ctx t
    | other run =>
      refine keeps_through HttpOp.act (fun c t _ => ih c t) (fun e t _ => ?_) (fun z t _ => ?_)
        (run request ctx) trivial
      · exact ⟨trivial, fun _ => trivial⟩
      · trivial

theorem serve_keeps {I : List (HttpEntry H E A) → HttpOp H E → Prop}
    (hsend : ∀ t status reason type body extra, I t (.sendHttpSimple status reason type body extra))
    (hchain : ∀ ctx t, (chain json aes route.handler request route.middleware ctx).Keeps I
      (fun _ => True) t) :
    (route.serve json aes request).Keeps I (fun _ => True) t := by
  unfold Route.serve
  refine Keeps.bind (M := fun _ => True) ?_ fun ctx t _ => ?_
  · rw [next_eq]
    exact hchain _ t
  · split_ifs
    · exact ⟨hsend .., fun _ => trivial⟩
    · trivial

theorem dispatch_handle {ctx : HttpContext}
    (h : (router.dispatch json aes request).Calls t (.handle handler ctx)) :
    ∃ route, router.lookup request = .route route ∧ route.handler = handler ∧
      (.requireAuth ∈ route.middleware → Accepted json aes request t) := by
  unfold Router.dispatch at h
  rcases hlookup : router.lookup request with route | - | - <;> rw [hlookup] at h
  · refine ⟨route, rfl, ?_, fun hauth => ?_⟩
    · have hhandler :=
        (serve_keeps (t := []) (I := fun _ => HandlerOf route) (fun _ _ _ _ _ _ => trivial)
        fun ctx t => chain_handler ctx t).allowed h
      exact Eq.symm hhandler
    · exact (serve_keeps (t := []) (I := Protected json aes request) (fun _ _ _ _ _ _ => trivial)
        fun ctx t => chain_protected hauth ctx t).allowed h
  · cases h with
    | call _ h => cases h
  · cases h with
    | call _ h => cases h

theorem dispatch_of_route (h : router.lookup request = .route route) :
    router.dispatch json aes request =
      chain json aes route.handler request route.middleware
        { param := route.param request } >>= fun ctx =>
        if ctx.respond then
          .call (.sendHttpSimple ctx.status (ascii (reasonPhrase ctx.status)) ctx.type
            ctx.body ctx.headers)
            fun _ => .ret ()
        else .ret () := by
  unfold Router.dispatch
  rw [h]
  dsimp only
  unfold Route.serve
  rw [next_eq]
  rfl

/-- The program is this one answer. -/
def Answers (p : HttpProgram H E A Unit) (status : ℤ) (reason body : String) : Prop :=
  ∀ t op, p.Calls t op ↔
    t = [] ∧ op = .sendHttpSimple status (ascii reason)
      (ascii "text/plain; charset=utf-8") (ascii body) []

theorem answers_sendHttpSimple (status : ℤ) (reason body : String) :
    Answers (sendHttpSimple status (ascii reason) (ascii "text/plain; charset=utf-8")
      (ascii body) [] :
      HttpProgram H E A Unit) status reason body := by
  intro t op
  constructor
  · intro h
    cases h with
    | here => exact ⟨rfl, rfl⟩
    | call _ h => cases h
  · rintro ⟨rfl, rfl⟩
    exact .here _ _

theorem dispatch_of_methodNotAllowed (h : router.lookup request = .methodNotAllowed) :
    Answers (router.dispatch json aes request) 405 "Method Not Allowed" "method not allowed\n" := by
  unfold Router.dispatch
  rw [h]
  exact answers_sendHttpSimple _ _ _

theorem dispatch_of_notFound (h : router.lookup request = .notFound) :
    Answers (router.dispatch json aes request) 404 "Not Found" "not found\n" := by
  unfold Router.dispatch
  rw [h]
  exact answers_sendHttpSimple _ _ _

theorem Answers.first {p : HttpProgram H E A Unit} {status : ℤ} {reason body : String}
    {op : HttpOp H E} (h : Answers p status reason body) (hop : p.Calls [] op) :
    ∃ reason type body extra,
      op = .sendHttpSimple status reason type body extra := ⟨_, _, _, _, ((h [] op).mp hop).2⟩

theorem chain_first (handler : HttpHandler H) (hms : ∀ run ms', ms ≠ .other run :: ms')
    (param : Bytes) : ∃ op, (chain json aes handler request ms { param := param } >>= fun ctx =>
        if ctx.respond then
          .call (.sendHttpSimple ctx.status (ascii (reasonPhrase ctx.status)) ctx.type
            ctx.body ctx.headers)
            fun _ => .ret ()
        else .ret ()).Calls [] op ∧
      ∀ status reason type body extra, op = .sendHttpSimple status reason type body extra →
        status = 401 := by
  cases ms with
  | nil => exact ⟨_, .here _ _, nofun⟩
  | cons m ms =>
    cases m with
    | other run => exact absurd rfl (hms run ms)
    | requireAuth =>
      have hcode {op : HttpOp H E} {reason type body : Bytes} {extra : List (Bytes × Bytes)}
          (hop : op = .sendHttpSimple 401 reason type body extra) :
          ∀ status reason type body extra, op = .sendHttpSimple status reason type body extra →
            status = 401 := by
        rintro status _ _ _ _ rfl
        cases hop
        rfl
      rw [chain, Middleware.run, requireAuth, authorized]
      rcases request.header (ascii "authorization") with - | auth
      · exact ⟨_, .here _ _, hcode rfl⟩
      · dsimp only
        split_ifs
        · exact ⟨_, .here _ _, hcode rfl⟩
        · exact ⟨_, .here _ _, nofun⟩

theorem selection_of_answers {status : ℤ} {reason body : String}
    (hms : ∀ route ∈ router.all, ∀ run ms, route.middleware ≠ .other run :: ms)
    (h : Answers (router.dispatch json aes request) status reason body) (hstatus : status ≠ 401) :
    (router.lookup request = .methodNotAllowed ∧ status = 405) ∨
    (router.lookup request = .notFound ∧ status = 404) := by
  rcases hlookup : router.lookup request with route | - | -
  · have hmem := List.mem_of_find?_eq_some (lookup_route_iff.mp hlookup)
    rw [dispatch_of_route hlookup] at h
    obtain ⟨op, hcall, hop⟩ := chain_first route.handler (hms route hmem) (route.param request)
    obtain ⟨_, _, _, _, heq⟩ := h.first hcall
    exact absurd (hop _ _ _ _ _ heq) hstatus
  · obtain ⟨_, _, _, _, heq⟩ := h.first ((dispatch_of_methodNotAllowed hlookup [] _).mpr ⟨rfl, rfl⟩)
    cases heq
    exact .inl ⟨rfl, rfl⟩
  · obtain ⟨_, _, _, _, heq⟩ := h.first ((dispatch_of_notFound hlookup [] _).mpr ⟨rfl, rfl⟩)
    cases heq
    exact .inr ⟨rfl, rfl⟩

theorem builtin_requireAuth (hmem : route ∈ (addBuiltinRoutes {} : Router H E A).builtins)
    (h : route.handler = .uploadsList ∨ route.handler = .uploadsDownload) :
    .requireAuth ∈ route.middleware := by
  rcases List.mem_cons.mp hmem with rfl | hmem
  · rcases h with h | h <;> cases h
  · rcases List.mem_cons.mp hmem with rfl | hmem
    · exact List.mem_cons_self
    · rw [List.mem_singleton.mp hmem]
      exact List.mem_cons_self

def oneTokenJson : JsonLibrary :=
  ⟨fun _ => [], fun _ => some (.object [("tokens", .array [.string [0x78]])])⟩

def uploadsRequest : HttpRequest :=
  ⟨ascii "GET", ascii "/uploads", ascii "/uploads", ascii "HTTP/1.1",
    [(ascii "authorization", bearer ++ [0x78])]⟩

def FirstMatch (request : HttpRequest) (all : List (Route H E A)) (route : Route H E A) : Prop :=
  route.matches request = true ∧
    ∃ before after, all = before ++ route :: after ∧
      ∀ earlier ∈ before, earlier.matches request = false

/-- A protected handler runs only on an authorized request. `dispatch` runs the chain of the first
route that matches, of the registered ones in their order and then the built-in ones, and sends what
comes of it; where no route matches it sends 405 if a path does, and 404 if none does, and it sends
these by itself only then (a middleware that comes first in its chain could send the same). -/
theorem dispatch_correct (json : JsonLibrary) (aes : AesGcm) (defaultRoutes : Bool)
    (registered : List (Route H E A)) (request : HttpRequest) :
    let dispatch := (serverRouter defaultRoutes registered).dispatch json aes request
    let all :=
      registered ++ if defaultRoutes then (addBuiltinRoutes {} : Router H E A).builtins else []
    (∀ t handler ctx, dispatch.Calls t (.handle handler ctx) →
      ∃ route, FirstMatch request all route ∧ route.handler = handler ∧
        (.requireAuth ∈ route.middleware → Accepted json aes request t)) ∧
    (∀ route, FirstMatch request all route → dispatch =
      chain json aes route.handler request route.middleware
        { param := route.param request } >>= fun ctx =>
        if ctx.respond then
          .call (.sendHttpSimple ctx.status (ascii (reasonPhrase ctx.status)) ctx.type
            ctx.body ctx.headers) fun _ => .ret ()
        else .ret ()) ∧
    ((∀ route ∈ all, route.matches request = false) →
      (∃ route ∈ all, pathMatches route request.path = true) →
      Answers dispatch 405 "Method Not Allowed" "method not allowed\n") ∧
    ((∀ route ∈ all, pathMatches route request.path = false) →
      Answers dispatch 404 "Not Found" "not found\n") ∧
    ((∀ route ∈ all, ∀ run ms, route.middleware ≠ .other run :: ms) →
      (Answers dispatch 405 "Method Not Allowed" "method not allowed\n" →
        (∀ route ∈ all, route.matches request = false) ∧
          ∃ route ∈ all, pathMatches route request.path = true) ∧
      (Answers dispatch 404 "Not Found" "not found\n" →
        ∀ route ∈ all, pathMatches route request.path = false)) ∧
    ((∀ route ∈ registered, route.handler ≠ .uploadsList ∧ route.handler ≠ .uploadsDownload) →
      ∀ t handler ctx, dispatch.Calls t (.handle handler ctx) →
        handler = .uploadsList ∨ handler = .uploadsDownload → Accepted json aes request t) := by
  intro dispatch all
  have hall : (serverRouter defaultRoutes registered).all = all :=
    serverRouter_all defaultRoutes registered
  have hfirst (route : Route H E A) :
      (serverRouter defaultRoutes registered).lookup request = .route route ↔
        FirstMatch request all route := by
    rw [lookup_route_iff, hall, List.find?_eq_some_iff_append]
    simp only [Bool.not_eq_true', FirstMatch]
  refine ⟨fun t handler ctx h => ?_, fun route h => dispatch_of_route ((hfirst route).mpr h),
    fun hnone hpath => ?_, fun hnone => ?_, fun hms => ⟨fun h => ?_, fun h => ?_⟩,
      fun hnames t handler ctx h huploads => ?_⟩
  · obtain ⟨route, hlookup, hhandler, haccepted⟩ := dispatch_handle h
    exact ⟨route, (hfirst route).mp hlookup, hhandler, haccepted⟩
  · refine dispatch_of_methodNotAllowed (lookup_methodNotAllowed_iff.mpr ?_)
    rw [hall]
    exact ⟨hnone, hpath⟩
  · refine dispatch_of_notFound (lookup_notFound_iff.mpr ?_)
    rwa [hall]
  · rcases selection_of_answers (hall ▸ hms) h (by decide) with ⟨hlookup, -⟩ | ⟨-, hcode⟩
    · exact hall ▸ lookup_methodNotAllowed_iff.mp hlookup
    · exact absurd hcode (by decide)
  · rcases selection_of_answers (hall ▸ hms) h (by decide) with ⟨-, hcode⟩ | ⟨hlookup, -⟩
    · exact absurd hcode (by decide)
    · exact hall ▸ lookup_notFound_iff.mp hlookup
  · obtain ⟨route, hlookup, rfl, haccepted⟩ := dispatch_handle h
    have hmem := List.mem_of_find?_eq_some (lookup_route_iff.mp hlookup)
    rw [hall] at hmem
    rcases List.mem_append.mp hmem with huser | hbuiltin
    · rcases huploads with hlist | hdownload
      · exact absurd hlist (hnames route huser).1
      · exact absurd hdownload (hnames route huser).2
    · cases defaultRoutes with
      | false => exact absurd hbuiltin List.not_mem_nil
      | true => exact haccepted (builtin_requireAuth hbuiltin huploads)

theorem dispatch_uploads_list :
    ((serverRouter true [] : Router Empty Empty nofun).dispatch oneTokenJson .bare
      uploadsRequest).Calls
        [.did .readTokens (some (List.replicate 28 0))] (.handle .uploadsList {}) ∧
      Accepted oneTokenJson .bare uploadsRequest
        ([.did .readTokens (some (List.replicate 28 0))] : List (HttpEntry Empty Empty nofun)) ∧
      Answers ((serverRouter true [] : Router Empty Empty nofun).dispatch oneTokenJson .bare
        { uploadsRequest with method := ascii "POST" }) 405 "Method Not Allowed"
          "method not allowed\n" := by
  have hcorrect (request : HttpRequest) :=
    dispatch_correct (H := Empty) (E := Empty) (A := nofun) oneTokenJson .bare true [] request
  have hcalls :
      ((serverRouter true [] : Router Empty Empty nofun).dispatch oneTokenJson .bare
        uploadsRequest).Calls
      [.did .readTokens (some (List.replicate 28 0))] (.handle .uploadsList {}) := by
    rw [(hcorrect uploadsRequest).2.1 ⟨ascii "GET", .exact, ascii "/uploads",
      [.requireAuth], .uploadsList⟩
      ⟨rfl, [_], [_], rfl, by simp [Route.matches, pathMatches, uploadsRequest]; decide⟩]
    refine Calls.call _ ?_
    exact Calls.here _ _
  refine ⟨hcalls, (hcorrect _).2.2.2.2.2 nofun _ _ _ hcalls (.inl rfl), (hcorrect _).2.2.1 ?_ ?_⟩
  · intro route hroute
    simp only [addBuiltinRoutes, List.nil_append, if_true, List.mem_cons, List.not_mem_nil,
      or_false] at hroute
    rcases hroute with rfl | rfl | rfl <;> rfl
  · exact ⟨⟨ascii "GET", .exact, ascii "/uploads", [.requireAuth], .uploadsList⟩,
      List.mem_cons_of_mem _ List.mem_cons_self, rfl⟩

end
end Dicker.Server
