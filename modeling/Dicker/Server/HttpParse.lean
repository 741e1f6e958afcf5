import Dicker.Lib.Occurrence
import Dicker.Server.Http

/-! Requests as they are written, and what `http_header_end` and `parse_http_request` make of
them. -/

namespace Dicker.Server
open Lib

/-! ## The searches -/

theorem searchFrom_eq (needle : Bytes) (i : ℕ) (text : Bytes) :
    searchFrom needle i text = (firstOccurrence needle text).map (i + ·) := by
  induction text generalizing i with
  | nil => rfl
  | cons x text ih =>
    unfold searchFrom firstOccurrence
    rw [ih]
    simp only [List.isPrefixOf_iff_prefix]
    split_ifs
    · rfl
    · rw [Option.map_map]
      congr 1
      funext k
      exact Nat.add_right_comm i 1 k

theorem findFrom_eq (needle text : Bytes) (pos : ℕ) :
    findFrom needle text pos = (firstOccurrence needle (text.drop pos)).map (pos + ·) :=
  searchFrom_eq ..

theorem findFrom_of_notMem {c : UInt8} {front s : Bytes} (hc : c ∉ s) (needle rest : Bytes) :
    findFrom (c :: needle) (front ++ (s ++ (c :: needle ++ rest))) front.length =
      some (front.length + s.length) := by
  rw [findFrom_eq, List.drop_left, firstOccurrence_of_notMem hc]
  rfl

theorem findFrom_none {c : UInt8} {text : Bytes} {pos : ℕ} (h : c ∉ text.drop pos) :
    findFrom [c] text pos = none := by
  rw [findFrom_eq, firstOccurrence_none_of_notMem h]
  rfl

def blankLine : Bytes := crlf ++ crlf

theorem headerEndFrom_eq (i : ℕ) (text : Bytes) :
    headerEndFrom i text = ((firstOccurrence blankLine text).map (i + · + 4)).getD 0 := by
  fun_induction headerEndFrom i text with
  | case1 i a b c d rest h =>
    obtain ⟨rfl, rfl, rfl, rfl⟩ := h
    rfl
  | case2 i a b c d rest h ih =>
    have hnot : ¬blankLine <+: a :: b :: c :: d :: rest := by
      rintro ⟨t, heq⟩
      cases heq
      exact h ⟨rfl, rfl, rfl, rfl⟩
    rw [firstOccurrence, if_neg hnot, ih, Option.map_map]
    congr 2
    funext k
    show i + 1 + k + 4 = i + (k + 1) + 4
    omega
  | case3 text i h =>
    have hnone : firstOccurrence blankLine text = none := by
      refine (firstOccurrence_eq_none_iff (by decide)).mpr fun k hk => ?_
      have hlen : k + 4 ≤ text.length := hk.length_le (by decide)
      rcases text with - | ⟨a, - | ⟨b, - | ⟨c, - | ⟨d, rest⟩⟩⟩⟩
      · exact absurd hlen (Nat.not_succ_le_zero _)
      · exact absurd (Nat.le_of_add_left_le hlen) (by decide : ¬4 ≤ 1)
      · exact absurd (Nat.le_of_add_left_le hlen) (by decide : ¬4 ≤ 2)
      · exact absurd (Nat.le_of_add_left_le hlen) (by decide : ¬4 ≤ 3)
      · exact h a b c d rest rfl
    rw [hnone]
    rfl

theorem httpHeaderEnd_eq (data : Bytes) :
    httpHeaderEnd data = ((firstOccurrence blankLine data).map (· + 4)).getD 0 := by
  rw [httpHeaderEnd, headerEndFrom_eq]
  simp only [Nat.zero_add]

/-! ## Lines -/

def Unbroken (s : Bytes) : Prop := 0x0D ∉ s ∧ 0x0A ∉ s

def linesText (lines : List Bytes) : Bytes := lines.flatMap (· ++ crlf)

theorem linesText_cons (line : Bytes) (lines : List Bytes) :
    linesText (line :: lines) = line ++ (crlf ++ linesText lines) := by
  rw [linesText, List.flatMap_cons, List.append_assoc]
  rfl

theorem length_le_linesText (lines : List Bytes) : lines.length ≤ (linesText lines).length := by
  induction lines with
  | nil => exact Nat.le_refl 0
  | cons line lines ih =>
    rw [linesText_cons]
    simp only [List.length_append, List.length_cons, crlf, List.length_nil]
    omega

theorem not_occurs_blankLine {line next t : Bytes} (hline : Unbroken line) (hnext : Unbroken next)
    (hne : next ≠ []) {j : ℕ} (hj : j < line.length + 2) :
    ¬Occurs blankLine (line ++ (crlf ++ (next ++ t))) j := by
  intro h
  obtain ⟨c, rest, rfl⟩ := List.exists_cons_of_ne_nil hne
  rcases Nat.lt_or_ge j line.length with hlt | hge
  · exact not_occurs_of_notMem hline.1 hlt h
  · obtain ⟨i, rfl⟩ := Nat.exists_eq_add_of_le hge
    rw [Occurs, List.drop_length_add_append] at h
    obtain ⟨rest', heq⟩ := h
    rcases i with - | - | i
    · have hc : c = 0x0D := by
        simp [blankLine, crlf] at heq
        exact heq.1.symm
      exact hnext.1 (hc ▸ List.mem_cons_self)
    · simp [blankLine, crlf] at heq
    · omega

theorem firstOccurrence_blankLine {line : Bytes} (hline : Unbroken line) {lines : List Bytes}
    (hlines : ∀ l ∈ lines, Unbroken l ∧ l ≠ []) (rest : Bytes) :
    firstOccurrence blankLine (linesText (line :: lines) ++ (crlf ++ rest)) =
      some (line.length + (linesText lines).length) := by
  induction lines generalizing line with
  | nil =>
    rw [linesText_cons, List.append_assoc, List.append_assoc]
    exact firstOccurrence_of_notMem hline.1 _ _
  | cons next lines ih =>
    obtain ⟨hnext, hlines⟩ := List.forall_mem_cons.mp hlines
    have hshape : linesText (line :: next :: lines) ++ (crlf ++ rest) =
        line ++ (crlf ++ (next ++ (crlf ++ linesText lines ++ (crlf ++ rest)))) := by
      simp only [linesText_cons, List.append_assoc]
    have hskip : ∀ j < line.length + 2, ¬Occurs blankLine
        (linesText (line :: next :: lines) ++ (crlf ++ rest)) j := by
      intro j hj
      rw [hshape]
      exact not_occurs_blankLine hline hnext.1 hnext.2 hj
    have hdrop : (linesText (line :: next :: lines) ++ (crlf ++ rest)).drop (line.length + 2) =
        linesText (next :: lines) ++ (crlf ++ rest) := by
      have hlen : (line ++ crlf).length = line.length + 2 := List.length_append
      rw [linesText_cons, List.append_assoc, List.append_assoc, ← List.append_assoc line,
        ← hlen, List.drop_left]
    rw [firstOccurrence_skip (by decide) hskip, hdrop, ih hnext.1 hlines, linesText_cons next]
    simp only [Option.map_some, List.length_append, crlf, List.length_cons, List.length_nil]
    congr 1
    omega

/-! ## Header lines -/

def headerText (header : Bytes × Bytes) : Bytes := header.1 ++ 0x3A :: header.2

structure PlainHeader (header : Bytes × Bytes) : Prop where
  name : Unbroken header.1
  colon : 0x3A ∉ header.1
  value : Unbroken header.2

theorem PlainHeader.line {header : Bytes × Bytes} (h : PlainHeader header) :
    Unbroken (headerText header) ∧ headerText header ≠ [] := by
  refine ⟨⟨?_, ?_⟩, fun heq => List.cons_ne_nil _ _ (List.append_eq_nil_iff.mp heq).2⟩
  · simp [headerText, h.name.1, h.value.1]
  · simp [headerText, h.name.2, h.value.2]

def readHeader (header : Bytes × Bytes) : Bytes × Bytes := (lower (trim header.1), trim header.2)

theorem headerLine_headerText {header : Bytes × Bytes} (h : PlainHeader header) :
    headerLine (headerText header) = some (readHeader header) := by
  have hcolon : findFrom [0x3A] (headerText header) 0 = some header.1.length := by
    have hfind := @findFrom_of_notMem 0x3A [] header.1 h.colon [] header.2
    rwa [List.nil_append, List.length_nil, Nat.zero_add] at hfind
  have hvalue : (headerText header).drop (header.1.length + 1) = header.2 := by
    rw [headerText, List.drop_length_add_append]
    rfl
  rw [headerLine, hcolon, Option.map_some, hvalue, headerText, List.take_left]
  rfl

theorem headersFrom_lines {headers : List (Bytes × Bytes)}
    (h : ∀ header ∈ headers, PlainHeader header) (front : Bytes) {fuel : ℕ}
    (hfuel : headers.length < fuel) :
    headersFrom (front ++ (linesText (headers.map headerText) ++ crlf)) fuel front.length =
      headers.map readHeader := by
  induction headers generalizing front fuel with
  | nil =>
    obtain ⟨fuel, rfl⟩ := Nat.exists_eq_add_one_of_ne_zero (Nat.ne_zero_of_lt hfuel)
    have hnext : findFrom crlf (front ++ crlf) front.length = some front.length :=
      @findFrom_of_notMem 0x0D front [] List.not_mem_nil [0x0A] []
    have hpos : front.length < (front ++ crlf).length := by
      rw [List.length_append]
      exact Nat.lt_add_of_pos_right (by decide)
    show headersFrom (front ++ crlf) (fuel + 1) front.length = []
    rw [headersFrom, if_pos hpos, hnext]
    exact if_pos rfl
  | cons header headers ih =>
    -- the line is read off behind `front`, and becomes part of it for the next one
    obtain ⟨fuel, rfl⟩ := Nat.exists_eq_add_one_of_ne_zero (Nat.ne_zero_of_lt hfuel)
    obtain ⟨hheader, hheaders⟩ := List.forall_mem_cons.mp h
    obtain ⟨hline, hne⟩ := hheader.line
    have hlen : 0 < (headerText header).length := List.length_pos_iff.mpr hne
    generalize htext : front ++ (linesText ((header :: headers).map headerText) ++ crlf) = text
    have hshape : text = front ++
        (headerText header ++ (crlf ++ (linesText (headers.map headerText) ++ crlf))) := by
      rw [← htext, List.map_cons, linesText_cons]
      simp only [List.append_assoc]
    have hnext : findFrom crlf text front.length =
        some (front.length + (headerText header).length) := by
      rw [hshape]
      exact findFrom_of_notMem hline.1 [0x0A] _
    have hpos : front.length < text.length := by
      rw [hshape, List.length_append, List.length_append]
      omega
    have hslice : (text.drop front.length).take
        (front.length + (headerText header).length - front.length) =
        headerText header := by
      rw [Nat.add_sub_cancel_left, hshape, List.drop_left, List.take_left]
    have hrest := ih hheaders (front ++ (headerText header ++ crlf)) (Nat.succ_lt_succ_iff.mp hfuel)
    have hfront : (front ++ (headerText header ++ crlf)).length =
        front.length + (headerText header).length + 2 := by
      rw [List.length_append, List.length_append, Nat.add_assoc]
      rfl
    have hsame : front ++ (headerText header ++ crlf) ++
        (linesText (headers.map headerText) ++ crlf) = text := by
      rw [hshape]
      simp only [List.append_assoc]
    rw [hsame, hfront] at hrest
    rw [headersFrom, if_pos hpos, hnext]
    dsimp only [Option.getD_some]
    rw [if_neg (by omega), hslice, headerLine_headerText hheader, hrest]
    rfl

/-! ## Requests -/

structure WrittenRequest where
  method : Bytes
  target : Bytes
  version : Bytes
  headers : List (Bytes × Bytes)

structure WrittenRequest.WellFormed (r : WrittenRequest) : Prop where
  method_ne_nil : r.method ≠ []
  method_space : 0x20 ∉ r.method
  method_unbroken : Unbroken r.method
  target_ne_nil : r.target ≠ []
  target_space : 0x20 ∉ r.target
  target_unbroken : Unbroken r.target
  version_unbroken : Unbroken r.version
  headers : ∀ header ∈ r.headers, PlainHeader header

def WrittenRequest.requestLine (r : WrittenRequest) : Bytes :=
  r.method ++ 0x20 :: (r.target ++ 0x20 :: r.version)

def WrittenRequest.text (r : WrittenRequest) : Bytes :=
  linesText (r.requestLine :: r.headers.map headerText) ++ crlf

def WrittenRequest.meaning (r : WrittenRequest) : HttpRequest where
  method := r.method
  target := r.target
  path := r.target.takeWhile (· ≠ 0x3F)
  version := r.version
  headers := r.headers.map readHeader

section
variable {r : WrittenRequest} (h : r.WellFormed)
include h

theorem WrittenRequest.WellFormed.requestLine_unbroken : Unbroken r.requestLine := by
  refine ⟨?_, ?_⟩
  · simp [requestLine, h.method_unbroken.1, h.target_unbroken.1, h.version_unbroken.1]
  · simp [requestLine, h.method_unbroken.2, h.target_unbroken.2, h.version_unbroken.2]

theorem WrittenRequest.WellFormed.blankLine_first (rest : Bytes) :
    firstOccurrence blankLine (r.text ++ rest) = some (r.text.length - 4) := by
  have hlines : ∀ l ∈ r.headers.map headerText, Unbroken l ∧ l ≠ [] := by
    intro l hl
    obtain ⟨header, hheader, rfl⟩ := List.mem_map.mp hl
    exact (h.headers header hheader).line
  rw [text, List.append_assoc, firstOccurrence_blankLine h.requestLine_unbroken hlines rest,
    linesText_cons]
  simp only [List.length_append, crlf, List.length_cons, List.length_nil]
  congr 1
  omega

theorem WrittenRequest.WellFormed.headerEnd (rest : Bytes) :
    httpHeaderEnd (r.text ++ rest) = r.text.length := by
  have hlen : 4 ≤ r.text.length := by
    rw [text, linesText_cons]
    simp only [List.length_append, crlf, List.length_cons, List.length_nil]
    omega
  rw [httpHeaderEnd_eq, h.blankLine_first]
  exact Nat.sub_add_cancel hlen

end

theorem path_eq (target : Bytes) : (match findFrom [0x3F] target 0 with
    | none => target
    | some query => target.take query) = target.takeWhile (· ≠ 0x3F) := by
  by_cases hquery : 0x3F ∈ target
  · obtain ⟨path, query, rfl, hpath⟩ := List.eq_append_cons_of_mem hquery
    have hfind : findFrom [0x3F] (path ++ 0x3F :: query) 0 = some path.length := by
      have hfind := @findFrom_of_notMem 0x3F [] path hpath [] query
      rwa [List.nil_append, List.length_nil, Nat.zero_add] at hfind
    have hall : ∀ c ∈ path, decide (c ≠ 0x3F) = true := by
      intro c hc
      rw [decide_eq_true_eq]
      rintro rfl
      exact hpath hc
    rw [hfind]
    dsimp only
    rw [List.take_left, List.takeWhile_append_of_pos hall,
      List.takeWhile_cons_of_neg (by decide), List.append_nil]
  · have hfind : findFrom [0x3F] target 0 = none := findFrom_none hquery
    rw [hfind]
    dsimp only
    rw [List.takeWhile_eq_self_iff.mpr]
    intro c hc
    rw [decide_eq_true_eq]
    rintro rfl
    exact hquery hc

theorem parseHttpRequest_line {method target version : Bytes} (hmethod : 0x20 ∉ method)
    (htarget : 0x20 ∉ target) {text : Bytes}
    (hline : findFrom crlf text 0 = some (method ++ 0x20 :: (target ++ 0x20 :: version)).length)
    (htake : text.take (method ++ 0x20 :: (target ++ 0x20 :: version)).length =
      method ++ 0x20 :: (target ++ 0x20 :: version)) :
    parseHttpRequest text = if method = [] ∨ target = [] then none
      else some ⟨method, target, target.takeWhile (· ≠ 0x3F), version, headersFrom text text.length
        ((method ++ 0x20 :: (target ++ 0x20 :: version)).length + 2)⟩ := by
  have hsp1 : findFrom space (method ++ 0x20 :: (target ++ 0x20 :: version)) 0 =
      some method.length := by
    have hfind := @findFrom_of_notMem 0x20 [] method hmethod [] (target ++ 0x20 :: version)
    rwa [List.nil_append, List.length_nil, Nat.zero_add] at hfind
  have hsp2 : findFrom space (method ++ 0x20 :: (target ++ 0x20 :: version)) (method.length + 1) =
      some (method.length + 1 + target.length) := by
    have hfind := @findFrom_of_notMem 0x20 (method ++ [0x20]) target htarget [] version
    rw [List.length_append, List.append_assoc] at hfind
    exact hfind
  have hbehind : (method ++ 0x20 :: (target ++ 0x20 :: version)).drop (method.length + 1) =
      target ++ 0x20 :: version := by
    rw [List.drop_length_add_append]
    rfl
  have hversion : (method ++ 0x20 :: (target ++ 0x20 :: version)).drop
      (method.length + 1 + target.length + 1) =
      version := by
    rw [Nat.add_assoc, ← List.drop_drop, hbehind, List.drop_length_add_append]
    rfl
  have hsize : method.length + 1 + target.length - method.length - 1 = target.length := by omega
  unfold parseHttpRequest
  rw [hline]
  simp only [Option.bind_eq_bind, Option.bind_some, htake, hsp1, hsp2, hbehind, hversion,
    hsize, List.take_left]
  split_ifs
  · rfl
  · exact congrArg (fun path => some (HttpRequest.mk method target path version _)) (path_eq target)

theorem WrittenRequest.WellFormed.parse {r : WrittenRequest} (h : r.WellFormed) :
    parseHttpRequest r.text = some r.meaning := by
  have hshape : r.text = r.requestLine ++
      (crlf ++ (linesText (r.headers.map headerText) ++ crlf)) := by
    rw [text, linesText_cons]
    simp only [List.append_assoc]
  have hline : findFrom crlf r.text 0 = some r.requestLine.length := by
    have hfind := @findFrom_of_notMem 0x0D [] r.requestLine h.requestLine_unbroken.1 [0x0A]
      (linesText (r.headers.map headerText) ++ crlf)
    rw [List.nil_append, List.length_nil, Nat.zero_add] at hfind
    rw [hshape]
    exact hfind
  have htake : r.text.take r.requestLine.length = r.requestLine := by rw [hshape, List.take_left]
  have hheaders : headersFrom r.text r.text.length (r.requestLine.length + 2) =
      r.headers.map readHeader := by
    have hfuel : r.headers.length < r.text.length := by
      have hcount := length_le_linesText (r.headers.map headerText)
      rw [List.length_map] at hcount
      rw [hshape]
      simp only [List.length_append, crlf, List.length_cons, List.length_nil]
      omega
    have hfrom := headersFrom_lines h.headers (r.requestLine ++ crlf) hfuel
    rw [List.append_assoc, ← hshape, List.length_append] at hfrom
    exact hfrom
  rw [parseHttpRequest_line h.method_space h.target_space hline htake,
    if_neg (not_or.mpr ⟨h.method_ne_nil, h.target_ne_nil⟩)]
  show some (HttpRequest.mk _ _ _ _ (headersFrom r.text r.text.length (r.requestLine.length + 2))) =
    _
  rw [hheaders]
  rfl

def Delimits (line method target version : Bytes) : Prop :=
  line = method ++ 0x20 :: (target ++ 0x20 :: version) ∧ 0x20 ∉ method ∧ 0x20 ∉ target

theorem findFrom_crlf {line : Bytes} (hline : ¬crlf <:+: line) (rest : Bytes) :
    findFrom crlf (line ++ (crlf ++ rest)) 0 = some line.length := by
  have hfirst : firstOccurrence crlf (line ++ (crlf ++ rest)) = some line.length := by
    refine (firstOccurrence_eq_some_iff (by decide)).mpr ⟨?_, fun j hj hoccurs => ?_⟩
    · rw [Occurs, List.drop_left]
      exact List.prefix_append _ _
    · rcases Nat.lt_or_ge line.length (j + 2) with hlt | hge
      · -- the LF would stand where the CR does
        obtain ⟨rest', heq⟩ := hoccurs
        have hlf : ((line ++ (crlf ++ rest)).drop j)[1]? = some 0x0A := by
          rw [← heq]
          rfl
        have hend : j + 1 = line.length := by omega
        rw [List.getElem?_drop, hend, List.getElem?_append_right (Nat.le_refl _),
          Nat.sub_self] at hlf
        exact absurd (Option.some.inj hlf) (by decide)
      · exact hline (infix_iff_occurs.mpr ⟨j, (occurs_append_iff hge).mp hoccurs⟩)
  rw [findFrom_eq, List.drop_zero, hfirst, Option.map_some, Nat.zero_add]

theorem parseHttpRequest_refuses {line rest : Bytes} (hfirst : ¬crlf <:+: line)
    (h : ¬∃ method target version, Delimits line method target version ∧
      method ≠ [] ∧ target ≠ []) :
    parseHttpRequest (line ++ (crlf ++ rest)) = none := by
  have hline := findFrom_crlf hfirst rest
  have htake : (line ++ (crlf ++ rest)).take line.length = line := List.take_left
  by_cases hparts : ∃ method target version, Delimits line method target version
  · obtain ⟨method, target, version, hdelimits⟩ := hparts
    obtain ⟨heq, hmethod, htarget⟩ := id hdelimits
    rw [heq] at hline htake
    rw [heq, parseHttpRequest_line hmethod htarget hline htake]
    refine if_pos ?_
    by_contra hnone
    rw [not_or] at hnone
    exact h ⟨method, target, version, hdelimits, hnone⟩
  · -- there are fewer than two spaces
    unfold parseHttpRequest
    simp only [hline, htake, Option.bind_eq_bind, Option.bind_some]
    by_cases hspace : 0x20 ∈ line
    · obtain ⟨method, behind, rfl, hmethod⟩ := List.eq_append_cons_of_mem hspace
      have hbehind : 0x20 ∉ behind := by
        intro hmem
        obtain ⟨target, version, rfl, htarget⟩ := List.eq_append_cons_of_mem hmem
        exact hparts ⟨method, target, version, rfl, hmethod, htarget⟩
      have hsp1 : findFrom space (method ++ 0x20 :: behind) 0 = some method.length := by
        have hfind := @findFrom_of_notMem 0x20 [] method hmethod [] behind
        rwa [List.nil_append, List.length_nil, Nat.zero_add] at hfind
      have hsp2 : findFrom space (method ++ 0x20 :: behind) (method.length + 1) = none := by
        apply findFrom_none
        rw [List.drop_length_add_append]
        exact hbehind
      rw [hsp1, Option.bind_some, hsp2]
      rfl
    · have hsp1 : findFrom space line 0 = none := findFrom_none hspace
      rw [hsp1]
      rfl

def RequestLine (block : Bytes) : Prop :=
  ∃ line behind method target version, block = line ++ (crlf ++ behind) ∧
  ¬crlf <:+: line ∧ Delimits line method target version ∧ method ≠ [] ∧ target ≠ []

theorem parseHttpRequest_eq_none_iff (block : Bytes) :
    parseHttpRequest block = none ↔ ¬RequestLine block := by
  constructor
  · rintro hnone ⟨line, behind, method, target, version, rfl, hfirst, ⟨rfl, hmethod, htarget⟩, hne⟩
    have hparse :=
      parseHttpRequest_line hmethod htarget (findFrom_crlf hfirst behind) List.take_left
    rw [if_neg (not_or.mpr hne)] at hparse
    exact nomatch hnone.symm.trans hparse
  · intro hrefused
    cases hfirst : firstOccurrence crlf block with
    | none =>
      have hline : findFrom crlf block 0 = none := by
        rw [findFrom_eq, List.drop_zero, hfirst]
        rfl
      unfold parseHttpRequest
      rw [hline]
      rfl
    | some k =>
      obtain ⟨behind, hblock, hline⟩ := firstOccurrence_split (by decide) hfirst
      rw [hblock]
      refine parseHttpRequest_refuses hline fun ⟨method, target, version, hdelimits, hne⟩ =>
        hrefused ?_
      exact ⟨_, behind, method, target, version, hblock, hline, hdelimits, hne⟩

/-- Whatever follows it, a request is found up to its blank line and read as what was written; and a
first line in which no two spaces delimit a method and a target is refused. -/
theorem http_parse_inverts {r : WrittenRequest} (h : r.WellFormed) (rest : Bytes) :
    firstOccurrence blankLine (r.text ++ rest) = some (r.text.length - 4) ∧
    httpHeaderEnd (r.text ++ rest) = r.text.length ∧
    parseHttpRequest ((r.text ++ rest).take (httpHeaderEnd (r.text ++ rest))) = some r.meaning ∧
    ∀ line behind, ¬crlf <:+: line →
      (¬∃ method target version, Delimits line method target version ∧ method ≠ [] ∧ target ≠ []) →
      parseHttpRequest (line ++ (crlf ++ behind)) = none := by
  refine ⟨h.blankLine_first rest, h.headerEnd rest, ?_, fun line behind => parseHttpRequest_refuses⟩
  rw [h.headerEnd, List.take_left]
  exact h.parse

def smallRequest : WrittenRequest :=
  ⟨[0x47, 0x45, 0x54], [0x2F, 0x61, 0x3F, 0x62], [0x31], [([0x58], [0x20, 0x79])]⟩

theorem smallRequest_wellFormed : smallRequest.WellFormed where
  method_ne_nil := by decide
  method_space := by decide
  method_unbroken := ⟨by decide, by decide⟩
  target_ne_nil := by decide
  target_space := by decide
  target_unbroken := ⟨by decide, by decide⟩
  version_unbroken := ⟨by decide, by decide⟩
  headers := by
    intro header hheader
    rw [List.mem_singleton.mp hheader]
    exact ⟨⟨by decide, by decide⟩, by decide, ⟨by decide, by decide⟩⟩

theorem http_parse_inverts_small :
    httpHeaderEnd (smallRequest.text ++ [0x7A]) = smallRequest.text.length ∧
    parseHttpRequest ((smallRequest.text ++ [0x7A]).take
      (httpHeaderEnd (smallRequest.text ++ [0x7A]))) =
      some ⟨[0x47, 0x45, 0x54], [0x2F, 0x61, 0x3F, 0x62], [0x2F, 0x61], [0x31],
        [([0x78], [0x79])]⟩ := by
  obtain ⟨-, hend, hparse, -⟩ := http_parse_inverts smallRequest_wellFormed [0x7A]
  exact ⟨hend, hparse⟩

end Dicker.Server
