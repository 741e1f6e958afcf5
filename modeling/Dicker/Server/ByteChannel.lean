import Dicker.Shared.Protocol

/-! The queue between the loop thread and the consumer (server/byte_channel.cxx). Every
member function holds the mutex, and `read_exact` gives it up only where it waits, so
that what it does from one wait to the next is a single function here. -/

namespace Dicker.Server

structure ByteChannel where
  blocks : List Bytes
  frontOffset : ℕ
  buffered : ℕ
  lowWaterMark : ℕ
  closed : Bool

/-- A call of `read_exact` under way: what it was asked for and has copied so far, and
whether it has asked for the socket to be resumed. -/
structure Reader where
  count : ℕ
  out : Bytes
  signaled : Bool

def Reader.start (count : ℕ) : Reader := ⟨count, [], false⟩

namespace ByteChannel

def create (lowWaterMark : ℕ) : ByteChannel := ⟨[], 0, 0, lowWaterMark, false⟩

def push (c : ByteChannel) (data : Bytes) : ByteChannel :=
  if data.length = 0 then c
  else if c.closed then c
  else { c with blocks := c.blocks ++ [data], buffered := c.buffered + data.length }

def close (c : ByteChannel) : ByteChannel := { c with closed := true }

def takeSize (c : ByteChannel) (front : Bytes) (r : Reader) : ℕ :=
  let available := front.length - c.frontOffset
  let needed := r.count - r.out.length
  if needed < available then needed else available

def passed (c : ByteChannel) (front : Bytes) (rest : List Bytes) (take : ℕ) : ByteChannel :=
  if c.frontOffset + take = front.length then
    { c with blocks := rest, frontOffset := 0, buffered := c.buffered - take }
  else { c with frontOffset := c.frontOffset + take, buffered := c.buffered - take }

def copied (c : ByteChannel) (front : Bytes) (take : ℕ) (r : Reader) : Reader × Bool :=
  let signal := !r.signaled && decide (c.buffered - take ≤ c.lowWaterMark)
  ({ r with out := r.out ++ (front.drop c.frontOffset).take take,
            signaled := r.signaled || signal }, signal)

/-- Up to `n` passes of the loop of `read_exact`. -/
def passes : ℕ → ByteChannel → Reader → ByteChannel × Reader × Bool
  | 0, c, r => (c, r, false)
  | n + 1, c, r =>
    if r.out.length < r.count then
      match c.blocks with
      | [] => (c, r, false)
      | front :: rest =>
        let take := c.takeSize front r
        let r' := c.copied front take r
        let last := passes n (c.passed front rest take) r'.1
        (last.1, last.2.1, r'.2 || last.2.2)
    else (c, r, false)

def readLoop (c : ByteChannel) (r : Reader) : ByteChannel × Reader × Bool :=
  passes c.blocks.length c r

/-! ## The bytes in the queue -/

def contents (c : ByteChannel) : Bytes := c.blocks.flatten.drop c.frontOffset

structure Sound (c : ByteChannel) : Prop where
  blocks_ne : ∀ b ∈ c.blocks, b ≠ []
  offset_lt : ∀ front ∈ c.blocks.head?, c.frontOffset < front.length
  offset_nil : c.blocks = [] → c.frontOffset = 0
  buffered_eq : c.buffered = c.contents.length

theorem create_sound (lowWaterMark : ℕ) : (create lowWaterMark).Sound where
  blocks_ne _ hb := by cases hb
  offset_lt _ hb := by cases hb
  offset_nil _ := rfl
  buffered_eq := rfl

variable {c : ByteChannel}

theorem Sound.offset_le (h : c.Sound) : c.frontOffset ≤ c.blocks.flatten.length := by
  cases hb : c.blocks with
  | nil => exact (h.offset_nil hb).le
  | cons front rest =>
    have hlt := h.offset_lt front (by rw [hb]; rfl)
    rw [List.flatten_cons, List.length_append]
    omega

theorem Sound.blocks_eq_nil_iff (h : c.Sound) : c.blocks = [] ↔ c.contents = [] := by
  constructor
  · intro hb
    rw [contents, hb]
    exact List.drop_nil
  · intro hc
    by_contra hb
    obtain ⟨front, rest, hcons⟩ := List.exists_cons_of_ne_nil hb
    have hlt := h.offset_lt front (by rw [hcons]; rfl)
    have hlen := congrArg List.length hc
    rw [contents, hcons, List.length_drop, List.flatten_cons, List.length_append] at hlen
    simp only [List.length_nil] at hlen
    omega

theorem Sound.push (h : c.Sound) (data : Bytes) :
    (c.push data).Sound ∧
      (c.push data).contents = if c.closed then c.contents else c.contents ++ data := by
  unfold ByteChannel.push
  split_ifs with hnil hclosed hclosed
  · exact ⟨h, rfl⟩
  · rw [List.eq_nil_of_length_eq_zero hnil, List.append_nil]
    exact ⟨h, rfl⟩
  · exact ⟨h, rfl⟩
  · have hcontents : (c.blocks ++ [data]).flatten.drop c.frontOffset = c.contents ++ data := by
      rw [List.flatten_append, List.flatten_singleton, List.drop_append_of_le_length h.offset_le]
      rfl
    refine ⟨⟨?_, ?_, ?_, ?_⟩, hcontents⟩
    · intro b hb
      rcases List.mem_append.mp hb with hb | hb
      · exact h.blocks_ne b hb
      · rw [List.mem_singleton.mp hb]
        exact fun hd => hnil (congrArg List.length hd)
    · intro front hfront
      cases hb : c.blocks with
      | nil =>
        rw [hb] at hfront
        cases hfront
        change c.frontOffset < data.length
        rw [h.offset_nil hb]
        exact Nat.pos_of_ne_zero hnil
      | cons b bs =>
        rw [hb] at hfront
        exact h.offset_lt front (by rw [hb]; exact hfront)
    · intro hb
      exact absurd hb (List.append_ne_nil_of_right_ne_nil _ (List.cons_ne_nil _ _))
    · change c.buffered + data.length = _
      rw [contents, hcontents, List.length_append, h.buffered_eq]

theorem Sound.close (h : c.Sound) : c.close.Sound := ⟨h.1, h.2, h.3, h.4⟩

/-! ## One pass -/

section
variable {front : Bytes} {rest : List Bytes} {r : Reader}

theorem Sound.contents_cons (h : c.Sound) (hb : c.blocks = front :: rest) :
    c.contents = front.drop c.frontOffset ++ rest.flatten := by
  have hlt := h.offset_lt front (by rw [hb]; rfl)
  rw [contents, hb, List.flatten_cons, List.drop_append_of_le_length hlt.le]

variable (c front r) in
theorem takeSize_le : c.takeSize front r ≤ front.length - c.frontOffset := by
  unfold takeSize
  dsimp only
  split_ifs <;> omega

variable (c front r) in
theorem takeSize_le_needed : c.takeSize front r ≤ r.count - r.out.length := by
  unfold takeSize
  dsimp only
  split_ifs <;> omega

theorem takeSize_pos (h : c.Sound) (hb : c.blocks = front :: rest)
    (hr : r.out.length < r.count) : 0 < c.takeSize front r := by
  have hlt := h.offset_lt front (by rw [hb]; rfl)
  unfold takeSize
  dsimp only
  split_ifs <;> omega

theorem passed_blocks (take : ℕ) (hb : c.blocks = front :: rest) :
    (c.passed front rest take).blocks =
      if c.frontOffset + take = front.length then rest else front :: rest := by
  unfold passed
  split_ifs
  · rfl
  · exact hb

theorem passed_contents (take : ℕ) (hb : c.blocks = front :: rest) :
    (c.passed front rest take).contents = c.contents.drop take := by
  have hdrop : c.contents.drop take = c.blocks.flatten.drop (c.frontOffset + take) := by
    rw [contents, List.drop_drop]
  rw [hdrop]
  unfold passed
  split_ifs with hend
  · rw [hend, hb, List.flatten_cons, List.drop_left]
    exact List.drop_zero
  · rfl

theorem Sound.passed (h : c.Sound) (hb : c.blocks = front :: rest) {take : ℕ}
    (ht : take ≤ front.length - c.frontOffset) : (c.passed front rest take).Sound := by
  have hlt := h.offset_lt front (by rw [hb]; rfl)
  have hcontents := passed_contents take hb
  have hrest : ∀ b ∈ rest, b ≠ [] := fun b hmem =>
    h.blocks_ne b (by rw [hb]; exact List.mem_cons_of_mem _ hmem)
  have hbuffered : (c.passed front rest take).buffered = c.buffered - take := by
    unfold ByteChannel.passed
    split_ifs <;> rfl
  refine ⟨?_, ?_, ?_, ?_⟩
  · rw [passed_blocks take hb]
    split_ifs
    · exact hrest
    · exact hb ▸ h.blocks_ne
  · rw [passed_blocks take hb]
    unfold ByteChannel.passed
    split_ifs with hend
    · intro b hmem
      exact List.length_pos_iff.mpr (hrest b (List.mem_of_mem_head? hmem))
    · intro b hmem
      cases hmem
      change c.frontOffset + take < front.length
      omega
  · rw [passed_blocks take hb]
    unfold ByteChannel.passed
    split_ifs with hend
    · exact fun _ => rfl
    · rintro ⟨⟩
  · rw [hbuffered, hcontents, List.length_drop, h.buffered_eq]

end

/-! ## The loop -/

structure Reads (c : ByteChannel) (r : Reader) (k : ℕ) (c' : ByteChannel) (r' : Reader)
    (signal : Bool) : Prop where
  sound : c'.Sound
  out_eq : r'.out = r.out ++ c.contents.take k
  contents_eq : c'.contents = c.contents.drop k
  le : k ≤ c.contents.length
  count_eq : r'.count = r.count
  closed_eq : c'.closed = c.closed
  low_eq : c'.lowWaterMark = c.lowWaterMark
  latch : r'.signaled = (r.signaled || signal)
  moved : signal = true → 0 < k
  /-- without a signal the buffer is still above the mark -/
  quiet : 0 < k → r.signaled = false → signal = false → c.lowWaterMark < c'.contents.length

theorem Reads.refl (h : c.Sound) (r : Reader) : Reads c r 0 c r false where
  sound := h
  out_eq := (List.append_nil _).symm
  contents_eq := rfl
  le := Nat.zero_le _
  count_eq := rfl
  closed_eq := rfl
  low_eq := rfl
  latch := (Bool.or_false _).symm
  moved := by decide
  quiet hk := absurd hk (Nat.lt_irrefl 0)

theorem Reads.trans {r r₁ r₂ : Reader} {c₁ c₂ : ByteChannel} {k k' : ℕ} {s s' : Bool}
    (h : Reads c r k c₁ r₁ s) (h' : Reads c₁ r₁ k' c₂ r₂ s') :
    Reads c r (k + k') c₂ r₂ (s || s') where
  sound := h'.sound
  out_eq := by rw [h'.out_eq, h.out_eq, h.contents_eq, List.append_assoc, List.take_add]
  contents_eq := by rw [h'.contents_eq, h.contents_eq, List.drop_drop]
  le := by
    have hle := h.le
    have hle' := h'.le
    rw [h.contents_eq, List.length_drop] at hle'
    omega
  count_eq := h'.count_eq.trans h.count_eq
  closed_eq := h'.closed_eq.trans h.closed_eq
  low_eq := h'.low_eq.trans h.low_eq
  latch := by rw [h'.latch, h.latch, Bool.or_assoc]
  moved := by
    intro hs
    rcases Bool.or_eq_true_iff.mp hs with hs | hs
    · exact Nat.add_pos_left (h.moved hs) k'
    · exact Nat.add_pos_right k (h'.moved hs)
  quiet := by
    intro hk hr hs
    obtain ⟨hs, hs'⟩ := Bool.or_eq_false_iff.mp hs
    have hr₁ : r₁.signaled = false := by rw [h.latch, hr, hs]; rfl
    rcases Nat.eq_zero_or_pos k' with rfl | hk'
    · rw [h'.contents_eq, List.drop_zero]
      exact h.quiet hk hr hs
    · rw [← h.low_eq]
      exact h'.quiet hk' hr₁ hs'

theorem Reads.pass (h : c.Sound) {front : Bytes} {rest : List Bytes} (hb : c.blocks = front :: rest)
    {r : Reader} (hr : r.out.length < r.count) :
    Reads c r (c.takeSize front r) (c.passed front rest (c.takeSize front r))
      (c.copied front (c.takeSize front r) r).1 (c.copied front (c.takeSize front r) r).2 := by
  have hle := takeSize_le c front r
  have hcontents := h.contents_cons hb
  have hlen : (front.drop c.frontOffset).length = front.length - c.frontOffset := List.length_drop
  have hpassed := passed_contents (c.takeSize front r) hb
  have hfields : (c.passed front rest (c.takeSize front r)).closed = c.closed ∧
      (c.passed front rest (c.takeSize front r)).lowWaterMark = c.lowWaterMark := by
    unfold ByteChannel.passed
    split_ifs <;> exact ⟨rfl, rfl⟩
  refine ⟨h.passed hb hle, ?_, hpassed, ?_, rfl, hfields.1, hfields.2, rfl,
    fun _ => takeSize_pos h hb hr, ?_⟩
  · change r.out ++ _ = _
    rw [hcontents, List.take_append_of_le_length (hlen ▸ hle)]
  · rw [hcontents, List.length_append, hlen]
    omega
  · intro _ hsignaled hsignal
    have hmark : ¬c.buffered - c.takeSize front r ≤ c.lowWaterMark := by
      intro hlow
      change (!r.signaled && decide (c.buffered - c.takeSize front r ≤ c.lowWaterMark)) = false
        at hsignal
      rw [hsignaled, decide_eq_true hlow] at hsignal
      cases hsignal
    rw [hpassed, List.length_drop, ← h.buffered_eq]
    omega

theorem passes_reads (n : ℕ) (h : c.Sound) (r : Reader)
    (hn : r.out.length < r.count → c.blocks.length ≤ n) :
    ∃ k, Reads c r k (passes n c r).1 (passes n c r).2.1 (passes n c r).2.2 ∧
      (k = 0 ∨ k + r.out.length ≤ r.count) ∧
      ((passes n c r).2.1.out.length < r.count → (passes n c r).1.blocks = []) := by
  induction n generalizing c r with
  | zero =>
    refine ⟨0, .refl h r, .inl rfl, fun hr => ?_⟩
    exact List.eq_nil_of_length_eq_zero (Nat.le_zero.mp (hn hr))
  | succ n ih =>
    unfold passes
    split_ifs with hr
    · split
      next hb => exact ⟨0, .refl h r, .inl rfl, fun _ => hb⟩
      next front rest hb =>
        have hpass := Reads.pass h hb hr
        have hneed := takeSize_le_needed c front r
        have hout : ((c.copied front (c.takeSize front r) r).1).out.length =
            r.out.length + c.takeSize front r := by
          rw [hpass.out_eq, List.length_append, List.length_take, Nat.min_eq_left hpass.le]
        have hfuel : r.out.length + c.takeSize front r < r.count →
            (c.passed front rest (c.takeSize front r)).blocks.length ≤ n := by
          intro hmore
          have hend : c.frontOffset + c.takeSize front r = front.length := by
            have hlt := h.offset_lt front (by rw [hb]; rfl)
            unfold takeSize at hmore ⊢
            dsimp only at hmore ⊢
            split_ifs at hmore ⊢ <;> omega
          have hlen := hn hr
          rw [hb, List.length_cons] at hlen
          rw [passed_blocks _ hb, if_pos hend]
          exact Nat.le_of_succ_le_succ hlen
        obtain ⟨k, hreads, hk, hstop⟩ := ih hpass.sound _ (hout ▸ hfuel)
        refine ⟨_, hpass.trans hreads, .inr ?_, hstop⟩
        rw [hout] at hk
        change k = 0 ∨ k + (r.out.length + c.takeSize front r) ≤ r.count at hk
        omega
    · exact ⟨0, .refl h r, .inl rfl, fun hlt => absurd hlt hr⟩

theorem Sound.readLoop (h : c.Sound) (r : Reader) :
    ∃ k, Reads c r k (c.readLoop r).1 (c.readLoop r).2.1 (c.readLoop r).2.2 ∧
      (k = 0 ∨ k + r.out.length ≤ r.count) ∧
      ((c.readLoop r).2.1.out.length < r.count → (c.readLoop r).1.contents = []) := by
  obtain ⟨k, hreads, hk, hempty⟩ := passes_reads c.blocks.length h r fun _ => le_rfl
  exact ⟨k, hreads, hk, fun hlt => hreads.sound.blocks_eq_nil_iff.mp (hempty hlt)⟩

end ByteChannel
end Dicker.Server
