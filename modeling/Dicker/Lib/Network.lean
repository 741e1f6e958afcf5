import Dicker.Lib.Confluence
import Dicker.Lib.Loop

/-! Two programs that talk over a pair of byte channels. What one of them hands over
waits in its outbox, then travels, then waits for the other; every byte may take any
time on each leg. The steps of such a network commute, so that a single run, the one
in which every byte arrives at once, determines all of them. -/

namespace Lib
open Relation Program

structure Node (Op : Type) (Ans : Op → Type) (σ α : Type) where
  handle : (op : Op) → σ → Ans op × σ
  /-- the bytes an operation puts into the outbox -/
  emits : Op → List UInt8
  /-- whether an operation waits until the outbox is empty -/
  waits : Op → Bool
  /-- what follows a result, if anything does -/
  resume : α → Option (Program Op Ans α)

structure Process (Op : Type) (Ans : Op → Type) (σ α : Type) where
  prog : Program Op Ans α
  env : σ
  log : List (Entry Op Ans)

structure Channel where
  outbox : List UInt8
  flight : List UInt8
  inbox : List UInt8

def Channel.put (c : Channel) (data : List UInt8) : Channel := { c with outbox := c.outbox ++ data }

def Channel.arrived (data : List UInt8) : Channel := ⟨[], [], data⟩

inductive Channel.Moves : Channel → Channel → Prop where
  | flush {b : UInt8} {outbox flight inbox : List UInt8} :
      Moves ⟨b :: outbox, flight, inbox⟩ ⟨outbox, flight ++ [b], inbox⟩
  | deliver {b : UInt8} {outbox flight inbox : List UInt8} :
      Moves ⟨outbox, b :: flight, inbox⟩ ⟨outbox, flight, inbox ++ [b]⟩

section
variable {Op : Type} {Ans : Op → Type} {σ α : Type}

inductive Process.Acts (N : Node Op Ans σ α) :
    Process Op Ans σ α → List UInt8 → List UInt8 →
      Process Op Ans σ α → List UInt8 → List UInt8 → Prop where
  | resume {a : α} {p : Program Op Ans α} {s : σ} {t : List (Entry Op Ans)}
      {inbox outbox : List UInt8} (ha : N.resume a = some p) :
      Acts N ⟨.ret a, s, t⟩ inbox outbox ⟨p, s, t⟩ inbox outbox
  | read {n : ℕ} {k : Option (List UInt8) → Program Op Ans α} {s : σ} {t : List (Entry Op Ans)}
      {z inbox outbox : List UInt8} (hz : z.length = n) :
      Acts N ⟨.read n k, s, t⟩ (z ++ inbox) outbox ⟨k (some z), s, t ++ [.got z]⟩ inbox outbox
  | call {op : Op} {k : Ans op → Program Op Ans α} {s : σ} {t : List (Entry Op Ans)}
      {inbox outbox : List UInt8} (hw : N.waits op = true → outbox = []) :
      Acts N ⟨.call op k, s, t⟩ inbox outbox
        ⟨k (N.handle op s).1, (N.handle op s).2, t ++ [.did op (N.handle op s).1]⟩ inbox
        (outbox ++ N.emits op)

variable {N : Node Op Ans σ α} {p p' : Process Op Ans σ α}
  {inbox inbox' outbox outbox' : List UInt8}

theorem Process.Acts.deterministic {p'' : Process Op Ans σ α} {inbox'' outbox'' : List UInt8}
    (h : p.Acts N inbox outbox p' inbox' outbox')
    (h' : p.Acts N inbox outbox p'' inbox'' outbox'') :
    p' = p'' ∧ inbox' = inbox'' ∧ outbox' = outbox'' := by
  cases h with
  | resume ha =>
    cases h' with
    | resume ha' =>
      rw [ha, Option.some_inj] at ha'
      exact ⟨by rw [ha'], rfl, rfl⟩
  | @read n k s t z _ _ hz =>
    generalize hw : z ++ inbox' = w at h'
    cases h' with
    | read hz' =>
      obtain ⟨rfl, rfl⟩ := List.append_inj hw (hz.trans hz'.symm)
      exact ⟨rfl, rfl, rfl⟩
  | call hw =>
    cases h' with
    | call hw' => exact ⟨rfl, rfl, rfl⟩

theorem Process.Acts.inbox_append (h : p.Acts N inbox outbox p' inbox' outbox')
    (more : List UInt8) : p.Acts N (inbox ++ more) outbox p' (inbox' ++ more) outbox' := by
  cases h with
  | resume ha => exact .resume ha
  | read hz =>
    rw [List.append_assoc]
    exact .read hz
  | call hw => exact .call hw

theorem Process.Acts.outbox_tail {b : UInt8} (h : p.Acts N inbox (b :: outbox) p' inbox' outbox') :
    ∃ rest, outbox' = b :: rest ∧ p.Acts N inbox outbox p' inbox' rest := by
  generalize ho : b :: outbox = o at h
  cases h with
  | resume ha => exact ⟨outbox, ho.symm, .resume ha⟩
  | read hz => exact ⟨outbox, ho.symm, .read hz⟩
  | call hw =>
    subst ho
    exact ⟨_, rfl, .call fun hop => absurd (hw hop) (List.cons_ne_nil _ _)⟩

theorem Process.Acts.log_prefix (h : p.Acts N inbox outbox p' inbox' outbox') :
    p.log <+: p'.log := by
  cases h with
  | resume ha => exact List.prefix_rfl
  | read hz => exact List.prefix_append _ _
  | call hw => exact List.prefix_append _ _

end

/-! ## The network -/

section
variable {OpA OpB : Type} {AnsA : OpA → Type} {AnsB : OpB → Type} {σ τ α β : Type}

structure Net (OpA : Type) (AnsA : OpA → Type) (σ α : Type) (OpB : Type) (AnsB : OpB → Type)
    (τ β : Type) where
  left : Process OpA AnsA σ α
  right : Process OpB AnsB τ β
  /-- from left to right -/
  there : Channel
  /-- from right to left -/
  back : Channel

variable (A : Node OpA AnsA σ α) (B : Node OpB AnsB τ β)

inductive Net.Step : Net OpA AnsA σ α OpB AnsB τ β → Net OpA AnsA σ α OpB AnsB τ β → Prop where
  | left {p p' : Process OpA AnsA σ α} {q : Process OpB AnsB τ β} {there back : Channel}
      {inbox outbox : List UInt8} (h : p.Acts A back.inbox there.outbox p' inbox outbox) :
      Step ⟨p, q, there, back⟩
        ⟨p', q, { there with outbox := outbox }, { back with inbox := inbox }⟩
  | right {p : Process OpA AnsA σ α} {q q' : Process OpB AnsB τ β} {there back : Channel}
      {inbox outbox : List UInt8} (h : q.Acts B there.inbox back.outbox q' inbox outbox) :
      Step ⟨p, q, there, back⟩
        ⟨p, q', { there with inbox := inbox }, { back with outbox := outbox }⟩
  | there {p : Process OpA AnsA σ α} {q : Process OpB AnsB τ β} {there there' back : Channel}
      (h : there.Moves there') : Step ⟨p, q, there, back⟩ ⟨p, q, there', back⟩
  | back {p : Process OpA AnsA σ α} {q : Process OpB AnsB τ β} {there back back' : Channel}
      (h : back.Moves back') : Step ⟨p, q, there, back⟩ ⟨p, q, there, back'⟩

variable {A B}

variable {c c' : Channel} {x y : Net OpA AnsA σ α OpB AnsB τ β}

theorem Channel.Moves.outbox (h : c.Moves c') {σ' : Type} {Op : Type} {Ans : Op → Type} {α' : Type}
    {N : Node Op Ans σ' α'} {p p' : Process Op Ans σ' α'} {inbox inbox' outbox : List UInt8}
    (hp : p.Acts N inbox c.outbox p' inbox' outbox) :
    ∃ outbox', p.Acts N inbox c'.outbox p' inbox' outbox' ∧
      Channel.Moves { c with outbox := outbox } { c' with outbox := outbox' } := by
  cases h with
  | flush =>
    obtain ⟨rest, rfl, hacts⟩ := hp.outbox_tail
    exact ⟨rest, hacts, .flush⟩
  | deliver => exact ⟨outbox, hp, .deliver⟩

theorem Channel.Moves.inbox (h : c.Moves c') {σ' : Type} {Op : Type} {Ans : Op → Type} {α' : Type}
    {N : Node Op Ans σ' α'} {p p' : Process Op Ans σ' α'} {inbox outbox outbox' : List UInt8}
    (hp : p.Acts N c.inbox outbox p' inbox outbox') :
    ∃ inbox', p.Acts N c'.inbox outbox p' inbox' outbox' ∧
      Channel.Moves { c with inbox := inbox } { c' with inbox := inbox' } := by
  cases h with
  | flush => exact ⟨inbox, hp, .flush⟩
  | @deliver b => exact ⟨inbox ++ [b], hp.inbox_append [b], .deliver⟩

theorem Channel.Moves.diamond : Diamond Channel.Moves := by
  intro c c' c'' h h'
  cases h with
  | flush =>
    cases h' with
    | flush => exact .inl rfl
    | deliver => exact .inr ⟨_, .deliver, .flush⟩
  | deliver =>
    cases h' with
    | flush => exact .inr ⟨_, .flush, .deliver⟩
    | deliver => exact .inl rfl

theorem Net.Step.diamond : Diamond (Net.Step A B) := by
  intro x y z hy hz
  -- a side is deterministic, and it and a channel work at two ends of what is on the way
  cases hy with
  | left hp =>
    cases hz with
    | left hp' =>
      obtain ⟨rfl, rfl, rfl⟩ := hp.deterministic hp'
      exact .inl rfl
    | right hq => exact .inr ⟨_, .right hq, .left hp⟩
    | there hc =>
      obtain ⟨outbox', hp', hc'⟩ := hc.outbox hp
      exact .inr ⟨_, .there hc', .left hp'⟩
    | back hc =>
      obtain ⟨inbox', hp', hc'⟩ := hc.inbox hp
      exact .inr ⟨_, .back hc', .left hp'⟩
  | right hq =>
    cases hz with
    | left hp => exact .inr ⟨_, .left hp, .right hq⟩
    | right hq' =>
      obtain ⟨rfl, rfl, rfl⟩ := hq.deterministic hq'
      exact .inl rfl
    | there hc =>
      obtain ⟨inbox', hq', hc'⟩ := hc.inbox hq
      exact .inr ⟨_, .there hc', .right hq'⟩
    | back hc =>
      obtain ⟨outbox', hq', hc'⟩ := hc.outbox hq
      exact .inr ⟨_, .back hc', .right hq'⟩
  | there hc =>
    cases hz with
    | left hp =>
      obtain ⟨outbox', hp', hc'⟩ := hc.outbox hp
      exact .inr ⟨_, .left hp', .there hc'⟩
    | right hq =>
      obtain ⟨inbox', hq', hc'⟩ := hc.inbox hq
      exact .inr ⟨_, .right hq', .there hc'⟩
    | there hc' =>
      rcases Channel.Moves.diamond _ _ _ hc hc' with rfl | ⟨w, h, h'⟩
      · exact .inl rfl
      · exact .inr ⟨_, .there h, .there h'⟩
    | back hc' => exact .inr ⟨_, .back hc', .there hc⟩
  | back hc =>
    cases hz with
    | left hp =>
      obtain ⟨inbox', hp', hc'⟩ := hc.inbox hp
      exact .inr ⟨_, .left hp', .back hc'⟩
    | right hq =>
      obtain ⟨outbox', hq', hc'⟩ := hc.outbox hq
      exact .inr ⟨_, .right hq', .back hc'⟩
    | there hc' => exact .inr ⟨_, .there hc', .back hc⟩
    | back hc' =>
      rcases Channel.Moves.diamond _ _ _ hc hc' with rfl | ⟨w, h, h'⟩
      · exact .inl rfl
      · exact .inr ⟨_, .back h, .back h'⟩

theorem Net.Step.log_prefix (h : Net.Step A B x y) :
    x.left.log <+: y.left.log ∧ x.right.log <+: y.right.log := by
  cases h with
  | left hp => exact ⟨hp.log_prefix, List.prefix_rfl⟩
  | right hq => exact ⟨List.prefix_rfl, hq.log_prefix⟩
  | there _ => exact ⟨List.prefix_rfl, List.prefix_rfl⟩
  | back _ => exact ⟨List.prefix_rfl, List.prefix_rfl⟩

theorem Net.log_prefix (h : ReflTransGen (Net.Step A B) x y) :
    x.left.log <+: y.left.log ∧ x.right.log <+: y.right.log := by
  induction h with
  | refl => exact ⟨List.prefix_rfl, List.prefix_rfl⟩
  | tail _ hstep ih => exact ⟨ih.1.trans hstep.log_prefix.1, ih.2.trans hstep.log_prefix.2⟩

/-! ## The run in which every byte arrives at once -/

theorem Channel.flush_all (outbox flight inbox : List UInt8) :
    ReflTransGen Channel.Moves ⟨outbox, flight, inbox⟩ ⟨[], flight ++ outbox, inbox⟩ := by
  induction outbox generalizing flight with
  | nil => rw [List.append_nil]
  | cons b outbox ih =>
    have hrest := ih (flight ++ [b])
    rw [List.append_assoc] at hrest
    exact .head .flush hrest

theorem Channel.deliver_all (flight inbox : List UInt8) :
    ReflTransGen Channel.Moves ⟨[], flight, inbox⟩ (.arrived (inbox ++ flight)) := by
  induction flight generalizing inbox with
  | nil => rw [List.append_nil, Channel.arrived]
  | cons b flight ih =>
    have hrest := ih (inbox ++ [b])
    rw [List.append_assoc] at hrest
    exact .head .deliver hrest

theorem Channel.put_arrives (data inbox : List UInt8) :
    ReflTransGen Channel.Moves ⟨data, [], inbox⟩ (.arrived (inbox ++ data)) :=
  (flush_all data [] inbox).trans (deliver_all _ inbox)

theorem Net.there_moves (h : ReflTransGen Channel.Moves c c') (p : Process OpA AnsA σ α)
    (q : Process OpB AnsB τ β) (back : Channel) :
    ReflTransGen (Net.Step A B) ⟨p, q, c, back⟩ ⟨p, q, c', back⟩ := by
  induction h with
  | refl => exact .refl
  | tail _ hc ih => exact ih.tail (.there hc)

def Net.swap (x : Net OpA AnsA σ α OpB AnsB τ β) : Net OpB AnsB τ β OpA AnsA σ α :=
  ⟨x.right, x.left, x.back, x.there⟩

theorem Net.Step.swap (h : Net.Step A B x y) : Net.Step B A x.swap y.swap := by
  cases h with
  | left hp => exact .right hp
  | right hq => exact .left hq
  | there hc => exact .back hc
  | back hc => exact .there hc

variable {γ : Type}

theorem Net.left_exec {p : Program OpA AnsA γ} (f : γ → Program OpA AnsA α) {s s' : σ}
    {y : List UInt8} {v : γ} {t : List (Entry OpA AnsA)} (h : Exec A.handle p s y v s' t)
    (q : Process OpB AnsB τ β) (log : List (Entry OpA AnsA)) (w rest : List UInt8) :
    ReflTransGen (Net.Step A B) ⟨⟨p >>= f, s, log⟩, q, .arrived w, .arrived (y ++ rest)⟩
      ⟨⟨f v, s', log ++ t⟩, q, .arrived (w ++ emitted A.emits t), .arrived rest⟩ := by
  induction h generalizing log w with
  | ret a s => rw [List.append_nil, emitted, List.append_nil]; exact .refl
  | @read n k z y s s' a t hz _ ih =>
    have hrest := ih (log ++ [.got z]) w
    rw [List.append_assoc] at hrest
    have hacts : Process.Acts A ⟨.read n k >>= f, s, log⟩ (z ++ y ++ rest) []
        ⟨k (some z) >>= f, s, log ++ [.got z]⟩ (y ++ rest) [] := by
      rw [read_bind, List.append_assoc]
      exact .read hz
    exact .head (.left hacts) hrest
  | @call op k y s s' a t _ ih =>
    have hrest := ih (log ++ [.did op (A.handle op s).1]) (w ++ A.emits op)
    rw [List.append_assoc, List.append_assoc] at hrest
    have hacts : Process.Acts A ⟨.call op k >>= f, s, log⟩ (y ++ rest) []
        ⟨k (A.handle op s).1 >>= f, (A.handle op s).2, log ++ [.did op (A.handle op s).1]⟩
        (y ++ rest) (A.emits op) := by
      rw [call_bind]
      exact .call fun _ => rfl
    exact .head (.left hacts)
      ((Net.there_moves (Channel.put_arrives (A.emits op) w) _ q _).trans hrest)

theorem Net.right_exec {p : Program OpB AnsB γ} (f : γ → Program OpB AnsB β) {s s' : τ}
    {y : List UInt8} {v : γ} {t : List (Entry OpB AnsB)} (h : Exec B.handle p s y v s' t)
    (q : Process OpA AnsA σ α) (log : List (Entry OpB AnsB)) (w rest : List UInt8) :
    ReflTransGen (Net.Step A B) ⟨q, ⟨p >>= f, s, log⟩, .arrived (y ++ rest), .arrived w⟩
      ⟨q, ⟨f v, s', log ++ t⟩, .arrived rest, .arrived (w ++ emitted B.emits t)⟩ :=
  (Net.left_exec (A := B) (B := A) f h q log w rest).lift Net.swap fun _ _ hstep => hstep.swap

theorem Net.right_rounds {S R : Type} {B : Node OpB AnsB τ (Next S R)}
    {m : Machine OpB AnsB S R} (hm : ∀ st, B.resume (.again st) = some (m.body st)) {st st' : S}
    {s s' : τ} {y : List UInt8} {t : List (Entry OpB AnsB)}
    (h : m.Rounds B.handle st s y st' s' t) (q : Process OpA AnsA σ α)
    (log : List (Entry OpB AnsB)) (w rest : List UInt8) :
    ReflTransGen (Net.Step A B) ⟨q, ⟨m.body st, s, log⟩, .arrived (y ++ rest), .arrived w⟩
      ⟨q, ⟨m.body st', s', log ++ t⟩, .arrived rest, .arrived (w ++ emitted B.emits t)⟩ := by
  induction h generalizing log w with
  | refl st s => rw [List.append_nil, emitted, List.append_nil]; exact .refl
  | @step st st' st'' s s' s'' y y' t t' hp _ ih =>
    have hfirst := Net.right_exec (A := A) (B := B) Program.ret hp q log w (y' ++ rest)
    rw [bind_ret_right] at hfirst
    have hrest := ih (log ++ t) (w ++ emitted B.emits t)
    rw [List.append_assoc, List.append_assoc, ← emitted_append] at hrest
    rw [List.append_assoc]
    exact (hfirst.tail (.right (.resume (hm st')))).trans hrest

end
end Lib
