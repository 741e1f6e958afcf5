import Dicker.Client.Task
import Dicker.Lib.Glob
import Dicker.Lib.LexPath
import Dicker.Lib.Regex

/-! The filter rules of a root (client/scheduler.h): a glob is turned into a regular expression, and
the first rule that matches an entry decides about it. -/

namespace Dicker.Client
open Lib

structure FilterRule where
  included : Bool
  pattern : Bytes

structure Rule where
  included : Bool
  dirOnly : Bool
  basenameOnly : Bool
  re : Regex

/-- ".^$+{}()[]|\\", as `strchr` searches it: the NUL behind the string is found as well. -/
def isSpecial (c : UInt8) : Bool :=
  [0x2E, 0x5E, 0x24, 0x2B, 0x7B, 0x7D, 0x28, 0x29, 0x5B, 0x5D, 0x7C, 0x5C, 0].contains c

def noSlash : Bytes := [0x5B, 0x5E, 0x2F, 0x5D]

def escaped (c : UInt8) : Bytes := if isSpecial c then [0x5C, c] else [c]

def translateByte (c : UInt8) : Bytes :=
  if c = 0x2A then noSlash ++ [0x2A]
  else if c = 0x3F then noSlash
  else escaped c

/-- The loop of `compileRule` over the pattern. -/
def translate : Bytes → Bytes
  | [] => []
  | [c] => translateByte c
  | c :: d :: rest =>
    if c = 0x2A ∧ d = 0x2A then [0x2E, 0x2A] ++ translate rest
    else translateByte c ++ translate (d :: rest)

def anyDirectory : Bytes := [0x28, 0x2E, 0x2A, 0x2F, 0x29, 0x3F]

def withoutSlash (pat : Bytes) : Bytes := if pat.getLast? = some 0x2F then pat.dropLast else pat

def withoutAnchor (pat : Bytes) : Bytes := if pat.head? = some 0x2F then pat.tail else pat

def NameOnly (pat : Bytes) : Prop := 0x2F ∉ pat ∧ ¬[0x2A, 0x2A] <:+: pat

instance (pat : Bytes) : Decidable (NameOnly pat) := inferInstanceAs (Decidable (_ ∧ _))

/-- `none` where the constructor of `std::regex` throws. -/
def compileRule (fr : FilterRule) : Option Rule :=
  let dirOnly := fr.pattern.getLast? = some 0x2F
  let pat := withoutSlash fr.pattern
  let anchored := pat.head? = some 0x2F
  let pat := withoutAnchor pat
  let basenameOnly := NameOnly pat
  let re := translate pat
  let full := if basenameOnly ∨ anchored then re else anyDirectory ++ re
  (Regex.parse ([0x5E] ++ full ++ [0x24])).map fun re => ⟨fr.included, dirOnly, basenameOnly, re⟩

def Rule.matches (r : Rule) (rel name : Bytes) : Bool :=
  r.re.matchesAll (if r.basenameOnly then name else rel)

/-- The first rule that matches decides; by default an entry is kept. -/
def keep : List Rule → Bytes → Bytes → Bool → Bool
  | [], _, _, _ => true
  | r :: rules, rel, name, isDir =>
    if r.dirOnly && !isDir then keep rules rel name isDir
    else if r.matches rel name then r.included
    else keep rules rel name isDir

/-! ## Reading the expression -/

abbrev globOf (pat : Bytes) : List (Wildcard UInt8) := wildcards 0x2A 0x3F pat

def regexOf : Wildcard UInt8 → Regex
  | .deep => .star (.char .any)
  | .run => .star (.char (.members true [0x2F]))
  | .one => .char (.members true [0x2F])
  | .lit c => .char (.byte c)

def Ready (r : Regex.Reader) : Prop := r.mode = .plain ∨ r.mode = .quantified

structure Reads (r : Regex.Reader) (text : Bytes) (sequence : Regex)
    (r' : Regex.Reader) : Prop where
  read : r.read text = some r'
  ready : Ready r'
  sequence_eq : r'.group.sequence = sequence
  alternatives_eq : r'.group.alternatives = r.group.alternatives
  outer_eq : r'.outer = r.outer

variable {r : Regex.Reader} {s rest : Bytes} {q : Regex} {c : UInt8}

theorem Reads.append {r' r'' : Regex.Reader} {t : Bytes} {q' : Regex} (h : Reads r s q r')
    (h' : Reads r' t q' r'') : Reads r (s ++ t) q' r'' where
  read := by
    rw [Regex.Reader.read_append, h.read]
    exact h'.read
  ready := h'.ready
  sequence_eq := h'.sequence_eq
  alternatives_eq := h'.alternatives_eq.trans h.alternatives_eq
  outer_eq := h'.outer_eq.trans h.outer_eq

theorem step_ready (h : Ready r) (hc : c ≠ 0x3F) : r.step c = r.plainByte c := by
  unfold Regex.Reader.step
  rcases h with h | h
  · rw [h]
  · rw [h]
    exact if_neg hc

theorem reads_deep (h : Ready r) :
    ∃ r', Reads r [0x2E, 0x2A] (.cat r.group.sequence (regexOf .deep)) r' := by
  obtain ⟨mode, g, outer⟩ := r
  rcases h with h | h
  all_goals
    cases h
    exact ⟨_, rfl, .inr rfl, rfl, rfl, rfl⟩

theorem reads_run (h : Ready r) :
    ∃ r', Reads r (noSlash ++ [0x2A]) (.cat r.group.sequence (regexOf .run)) r' := by
  obtain ⟨mode, g, outer⟩ := r
  rcases h with h | h
  all_goals
    cases h
    exact ⟨_, rfl, .inr rfl, rfl, rfl, rfl⟩

theorem reads_one (h : Ready r) :
    ∃ r', Reads r noSlash (.cat r.group.sequence (regexOf .one)) r' := by
  obtain ⟨mode, g, outer⟩ := r
  rcases h with h | h
  all_goals
    cases h
    exact ⟨_, rfl, .inl rfl, rfl, rfl, rfl⟩

theorem wordByte_of_isSpecial (h : isSpecial c = true) : Regex.wordByte c = false := by
  have hall : ∀ b ∈ [0x2E, 0x5E, 0x24, 0x2B, 0x7B, 0x7D, 0x28, 0x29, 0x5B, 0x5D, 0x7C, 0x5C, 0],
      Regex.wordByte b = false := by decide +kernel
  exact hall c (List.contains_iff_mem.mp h)

theorem plainByte_of_not_isSpecial (r : Regex.Reader) (h : isSpecial c = false) (hstar : c ≠ 0x2A)
    (hquestion : c ≠ 0x3F) : r.plainByte c = some (r.atom (.char (.byte c))) := by
  unfold isSpecial at h
  simp only [List.contains_eq_mem, List.mem_cons, decide_eq_false_iff_not, not_or] at h
  obtain ⟨hdot, hcaret, hdollar, hplus, hopen, hclose, hparen, hparen', hbracket, hbracket',
      hbar, hback, -⟩ := h
  unfold Regex.Reader.plainByte
  rw [if_neg hcaret, if_neg hdollar, if_neg hback, if_neg hdot, if_neg hstar, if_neg hplus,
    if_neg hquestion, if_neg hparen, if_neg hparen', if_neg hbracket, if_neg hbar]
  exact if_neg (not_or.mpr ⟨hbracket', not_or.mpr ⟨hopen, hclose⟩⟩)

theorem reads_lit (h : Ready r) (hstar : c ≠ 0x2A) (hquestion : c ≠ 0x3F) :
    ∃ r', Reads r (escaped c) (.cat r.group.sequence (regexOf (.lit c))) r' := by
  refine ⟨r.atom (.char (.byte c)), ?_, .inl rfl, rfl, rfl, rfl⟩
  unfold escaped
  cases hspecial : isSpecial c with
  | true =>
    have hescape : r.step 0x5C = some { r with mode := .escape } := step_ready h (by decide)
    have hbyte : ({ r with mode := .escape } : Regex.Reader).step c =
      some (r.atom (.char (.byte c))) :=
      if_neg (Bool.eq_false_iff.mp (wordByte_of_isSpecial hspecial))
    show (r.step 0x5C).bind (fun r' => (r'.step c).bind some) = _
    rw [hescape, Option.bind_some, hbyte]
    rfl
  | false =>
    show (r.step c).bind some = _
    rw [step_ready h hquestion, plainByte_of_not_isSpecial r hspecial hstar hquestion]
    rfl

theorem reads_translateByte (h : Ready r) (c : UInt8) :
    ∃ r', Reads r (translateByte c)
      (.cat r.group.sequence (regexOf (wildcardOf 0x2A 0x3F c))) r' := by
  unfold translateByte wildcardOf
  split_ifs with hstar hquestion
  · exact reads_run h
  · exact reads_one h
  · exact reads_lit h hstar hquestion

def sequenceOf (q : Regex) (ws : List (Wildcard UInt8)) : Regex :=
  ws.foldl (fun q w => .cat q (regexOf w)) q

theorem reads_translate (pat : Bytes) (h : Ready r) :
    ∃ r', Reads r (translate pat) (sequenceOf r.group.sequence (globOf pat)) r' := by
  induction pat using translate.induct generalizing r with
  | case1 => exact ⟨r, rfl, h, rfl, rfl, rfl⟩
  | case2 c => exact reads_translateByte h c
  | case3 c d rest hpair ih =>
    obtain ⟨r', hr'⟩ := reads_deep h
    obtain ⟨r'', hr''⟩ := ih hr'.ready
    rw [translate, if_pos hpair, globOf, wildcards, if_pos hpair]
    rw [hr'.sequence_eq] at hr''
    exact ⟨r'', hr'.append hr''⟩
  | case4 c d rest hpair ih =>
    obtain ⟨r', hr'⟩ := reads_translateByte h c
    obtain ⟨r'', hr''⟩ := ih hr'.ready
    rw [translate, if_neg hpair, globOf, wildcards, if_neg hpair]
    rw [hr'.sequence_eq] at hr''
    exact ⟨r'', hr'.append hr''⟩

/-! ## What the expression matches -/

def OnLine (b : UInt8) : Prop := lineTerminator b = false

instance : DecidablePred OnLine := fun b => inferInstanceAs (Decidable (lineTerminator b = false))

theorem has_noSlash (b : UInt8) : (CharSet.members true [0x2F]).has b = true ↔ b ≠ 0x2F := by
  simp [CharSet.has]

theorem takes_regexOf (w : Wildcard UInt8) {pos : ℕ} :
    (regexOf w).Takes pos s rest ↔ w.Matches 0x2F OnLine s := by
  cases w with
  | deep =>
    rw [regexOf, Regex.takes_star_char]
    simp only [CharSet.has, Bool.not_eq_true', Wildcard.Matches, OnLine]
  | run =>
    rw [regexOf, Regex.takes_star_char]
    simp only [has_noSlash, Wildcard.Matches]
    exact ⟨fun h hmem => h _ hmem rfl, fun h b hb heq => h (heq ▸ hb)⟩
  | one =>
    rw [regexOf, Regex.takes_char]
    simp only [has_noSlash, Wildcard.Matches]
  | lit c =>
    rw [regexOf, Regex.takes_char]
    simp only [CharSet.has, decide_eq_true_eq, Wildcard.Matches]
    constructor
    · rintro ⟨b, hs, hb⟩
      exact hb ▸ hs
    · exact fun hs => ⟨c, hs, rfl⟩

theorem takes_sequenceOf (ws : List (Wildcard UInt8)) {pos : ℕ} :
    (sequenceOf q ws).Takes pos s rest ↔
      ∃ a b, s = a ++ b ∧ q.Takes pos a (b ++ rest) ∧ globMatches 0x2F OnLine ws b := by
  induction ws generalizing q s with
  | nil =>
    constructor
    · exact fun h => ⟨s, [], (List.append_nil s).symm, h, rfl⟩
    · rintro ⟨a, b, rfl, ha, hb⟩
      rw [globMatches] at hb
      rw [hb] at ha ⊢
      rw [List.append_nil]
      exact ha
  | cons w ws ih =>
    have hcons : sequenceOf q (w :: ws) = sequenceOf (.cat q (regexOf w)) ws := rfl
    rw [hcons, ih]
    constructor
    · rintro ⟨a, b, rfl, ha, hb⟩
      obtain ⟨a, c, rfl, ha, hc⟩ := Regex.takes_cat.mp ha
      rw [← List.append_assoc] at ha
      exact ⟨a, c ++ b, List.append_assoc .., ha, c, b, rfl, (takes_regexOf w).mp hc, hb⟩
    · rintro ⟨a, t, rfl, ha, c, b, rfl, hc, hb⟩
      refine ⟨a ++ c, b, (List.append_assoc ..).symm,
        Regex.takes_cat.mpr ⟨a, c, rfl, ?_, (takes_regexOf w).mpr hc⟩, hb⟩
      rwa [← List.append_assoc]

def caret : Regex := .cat .empty .start

def caretDirectory : Regex :=
  .cat caret (.opt (.cat (.cat .empty (.star (.char .any))) (.char (.byte 0x2F))))

theorem reads_caret : ∃ r', Reads .begin [0x5E] caret r' := ⟨_, rfl, .inl rfl, rfl, rfl, rfl⟩

theorem reads_caretDirectory : ∃ r', Reads .begin ([0x5E] ++ anyDirectory) caretDirectory r' :=
  ⟨_, rfl, .inr rfl, rfl, rfl, rfl⟩

theorem takes_caret : caret.Takes 0 s rest ↔ s = [] := by
  rw [caret, Regex.takes_cat]
  constructor
  · rintro ⟨a, b, rfl, ha, hb⟩
    rw [Regex.takes_empty.mp ha, (Regex.takes_start.mp hb).1]
    rfl
  · rintro rfl
    exact ⟨[], [], rfl, Regex.takes_empty.mpr rfl, Regex.takes_start.mpr ⟨rfl, rfl⟩⟩

def Directory (s : Bytes) : Prop := s = [] ∨ ∃ d, s = d ++ [0x2F] ∧ ∀ b ∈ d, OnLine b

theorem takes_caretDirectory : caretDirectory.Takes 0 s rest ↔ Directory s := by
  have hline : ∀ {pos : ℕ} {d rest : Bytes},
      (Regex.cat .empty (.star (.char .any))).Takes pos d rest ↔ ∀ b ∈ d, OnLine b := by
    intro pos d rest
    rw [Regex.takes_cat]
    constructor
    · rintro ⟨a, b, rfl, ha, hb⟩
      rw [Regex.takes_empty.mp ha, List.nil_append]
      exact (takes_regexOf .deep).mp hb
    · exact fun h => ⟨[], d, rfl, Regex.takes_empty.mpr rfl, (takes_regexOf .deep).mpr h⟩
  rw [caretDirectory, Regex.takes_cat]
  constructor
  · rintro ⟨a, b, rfl, ha, hb⟩
    rw [takes_caret.mp ha, List.nil_append]
    rcases Regex.takes_opt.mp hb with hb | hb
    · obtain ⟨d, t, rfl, hd, ht⟩ := Regex.takes_cat.mp hb
      rw [(takes_regexOf (.lit 0x2F)).mp ht]
      exact .inr ⟨d, rfl, hline.mp hd⟩
    · exact .inl hb
  · intro h
    refine ⟨[], s, rfl, takes_caret.mpr rfl, Regex.takes_opt.mpr ?_⟩
    rcases h with rfl | ⟨d, rfl, hd⟩
    · exact .inr rfl
    · exact .inl (Regex.takes_cat.mpr ⟨d, [0x2F], rfl, hline.mpr hd,
        (takes_regexOf (.lit 0x2F)).mpr rfl⟩)

theorem parse_pattern {front : Bytes} (hfront : ∃ r, Reads .begin front q r) (pat : Bytes) :
    ∃ re, Regex.parse (front ++ translate pat ++ [0x24]) = some re ∧ ∀ s, re.matchesAll s = true ↔
      ∃ a b, s = a ++ b ∧ q.Takes 0 a b ∧ globMatches 0x2F OnLine (globOf pat) b := by
  obtain ⟨r, hr⟩ := hfront
  obtain ⟨r', hr'⟩ := reads_translate pat hr.ready
  have hread := hr.append hr'
  have hstop : r'.step 0x24 = some ⟨.plain, r'.group.addAssertion .stop, r'.outer⟩ :=
    step_ready hr'.ready (by decide)
  have hall : Regex.Reader.begin.read (front ++ translate pat ++ [0x24]) =
      some ⟨.plain, r'.group.addAssertion .stop, []⟩ := by
    have houter : r'.outer = [] := hread.outer_eq
    rw [Regex.Reader.read_append, hread.read]
    show (r'.step 0x24).bind some = _
    rw [hstop, houter]
    rfl
  have hregex : (r'.group.addAssertion .stop).regex = .cat (sequenceOf q (globOf pat)) .stop := by
    have halternatives : (r'.group.addAssertion .stop).alternatives = none := hread.alternatives_eq
    rw [Regex.Group.regex, halternatives, ← hr.sequence_eq, ← hr'.sequence_eq]
    rfl
  refine ⟨.cat (sequenceOf q (globOf pat)) .stop, ?_, fun s => ?_⟩
  · rw [Regex.parse, hall, ← hregex]
  · rw [Regex.matchesAll_iff, Regex.takes_cat]
    constructor
    · rintro ⟨t, u, rfl, ht, hu⟩
      obtain ⟨rfl, -⟩ := Regex.takes_stop.mp hu
      obtain ⟨a, b, rfl, ha, hb⟩ := (takes_sequenceOf _).mp ht
      rw [List.append_nil, List.append_nil] at ha
      exact ⟨a, b, List.append_nil _, ha, hb⟩
    · rintro ⟨a, b, rfl, ha, hb⟩
      refine ⟨a ++ b, [], (List.append_nil _).symm, ?_, Regex.takes_stop.mpr ⟨rfl, rfl⟩⟩
      refine (takes_sequenceOf _).mpr ⟨a, b, rfl, ?_, hb⟩
      rwa [List.append_nil, List.append_nil]

/-! ## The rules -/

section
variable (fr : FilterRule)

def FilterRule.body : Bytes := withoutAnchor (withoutSlash fr.pattern)

def FilterRule.Anchored : Prop := (withoutSlash fr.pattern).head? = some 0x2F

variable {fr}

theorem compileRule_whole (h : NameOnly fr.body ∨ fr.Anchored) :
    ∃ rule, compileRule fr = some rule ∧
    rule.basenameOnly = decide (NameOnly fr.body) ∧
    ∀ s, rule.re.matchesAll s = true ↔ globMatches 0x2F OnLine (globOf fr.body) s := by
  obtain ⟨re, hparse, hmatch⟩ := parse_pattern reads_caret fr.body
  refine ⟨⟨fr.included, fr.pattern.getLast? = some 0x2F, NameOnly fr.body, re⟩, ?_,
    rfl, fun s => ?_⟩
  · have hfull : NameOnly (withoutAnchor (withoutSlash fr.pattern)) ∨
        (withoutSlash fr.pattern).head? = some 0x2F := h
    unfold compileRule
    dsimp only
    rw [if_pos hfull]
    show Option.map _ (Regex.parse ([0x5E] ++ translate fr.body ++ [0x24])) = _
    rw [hparse]
    rfl
  · rw [hmatch s]
    constructor
    · rintro ⟨a, b, rfl, ha, hb⟩
      rw [takes_caret.mp ha]
      exact hb
    · exact fun hs => ⟨[], s, rfl, takes_caret.mpr rfl, hs⟩

theorem compileRule_below (hname : ¬NameOnly fr.body) (hfree : ¬fr.Anchored) :
    ∃ rule, compileRule fr = some rule ∧
    rule.basenameOnly = false ∧ ∀ s, rule.re.matchesAll s = true ↔
      ∃ a b, s = a ++ b ∧ Directory a ∧ globMatches 0x2F OnLine (globOf fr.body) b := by
  obtain ⟨re, hparse, hmatch⟩ := parse_pattern reads_caretDirectory fr.body
  refine ⟨⟨fr.included, fr.pattern.getLast? = some 0x2F, NameOnly fr.body, re⟩, ?_,
    decide_eq_false hname, fun s => ?_⟩
  · have hfull : ¬(NameOnly (withoutAnchor (withoutSlash fr.pattern)) ∨
        (withoutSlash fr.pattern).head? = some 0x2F) :=
      not_or.mpr ⟨hname, hfree⟩
    unfold compileRule
    dsimp only
    rw [if_neg hfull]
    show Option.map _ (Regex.parse ([0x5E] ++ (anyDirectory ++ translate fr.body) ++ [0x24])) = _
    rw [← List.append_assoc, hparse]
    rfl
  · simp only [hmatch s, takes_caretDirectory]

end

def basename (rel : Bytes) : Bytes := rel.rtakeWhile (· ≠ 0x2F)

theorem basename_of_notMem {rel : Bytes} (h : 0x2F ∉ rel) : basename rel = rel := by
  rw [basename, List.rtakeWhile_eq_self_iff]
  intro c hc
  rw [decide_eq_true_eq]
  exact fun heq => h (heq ▸ hc)

theorem mem_of_mem_basename {rel : Bytes} (h : c ∈ basename rel) : c ∈ rel :=
  (List.rtakeWhile_suffix _ _).subset h

abbrev GlobMatches (pat s : Bytes) : Prop := globMatches 0x2F (fun _ => True) (globOf pat) s

theorem onLine_iff {pat : Bytes} (hline : ∀ c ∈ s, OnLine c) :
    globMatches 0x2F OnLine (globOf pat) s ↔ GlobMatches pat s :=
  globMatches_congr fun c hc => iff_of_true (hline c hc) trivial

/-- Without a leading '/', the rule matches what the glob does: the last component for a pattern
with neither '/' nor "**", otherwise what begins the path or follows a '/'. -/
theorem glob_exact (included : Bool) {pattern rel : Bytes} (hfree : pattern.head? ≠ some 0x2F)
    (hline : ∀ c ∈ rel, OnLine c) : ∃ rule, compileRule ⟨included, pattern⟩ = some rule ∧
    (rule.matches rel (basename rel) = true ↔
      if NameOnly (withoutSlash pattern) then GlobMatches (withoutSlash pattern) (basename rel)
      else ∃ a b, rel = a ++ b ∧ (a = [] ∨ a.getLast? = some 0x2F) ∧
        GlobMatches (withoutSlash pattern) b) := by
  have hhead : (withoutSlash pattern).head? ≠ some 0x2F := by
    unfold withoutSlash
    split_ifs
    · rw [List.head?_dropLast]
      split_ifs
      · exact hfree
      · exact nofun
    · exact hfree
  have hbody : FilterRule.body ⟨included, pattern⟩ = withoutSlash pattern := if_neg hhead
  split_ifs with hname
  · obtain ⟨rule, hrule, honly, hmatch⟩ := compileRule_whole (.inl (hbody ▸ hname))
    refine ⟨rule, hrule, ?_⟩
    rw [hbody, decide_eq_true hname] at honly
    rw [Rule.matches, honly, if_pos rfl, hmatch, hbody]
    exact onLine_iff fun c hc => hline c (mem_of_mem_basename hc)
  · have hpart : ¬NameOnly (FilterRule.body ⟨included, pattern⟩) := hbody ▸ hname
    obtain ⟨rule, hrule, honly, hmatch⟩ := compileRule_below hpart hhead
    refine ⟨rule, hrule, ?_⟩
    rw [Rule.matches, honly, hmatch, hbody]
    constructor
    · rintro ⟨a, b, rfl, ha, hb⟩
      refine ⟨a, b, rfl, ?_, (onLine_iff fun c hc => hline c (List.mem_append_right _ hc)).mp hb⟩
      rcases ha with rfl | ⟨d, rfl, -⟩
      · exact .inl rfl
      · exact .inr List.getLast?_concat
    · rintro ⟨a, b, rfl, ha, hb⟩
      refine ⟨a, b, rfl, ?_, (onLine_iff fun c hc => hline c (List.mem_append_right _ hc)).mpr hb⟩
      refine ha.imp_right fun hlast => ?_
      obtain ⟨d, rfl⟩ := List.getLast?_eq_some_iff.mp hlast
      exact ⟨d, rfl, fun c hc => hline c (List.mem_append_left _ (List.mem_append_left _ hc))⟩

theorem glob_exact_object : (∀ c ∈ [0x61, 0x2F, 0x62, 0x2E, 0x6F], OnLine c) ∧
    ∃ rule, compileRule ⟨false, [0x2A, 0x2E, 0x6F]⟩ = some rule ∧
      (rule.matches [0x61, 0x2F, 0x62, 0x2E, 0x6F]
        (basename [0x61, 0x2F, 0x62, 0x2E, 0x6F]) = true ↔
        GlobMatches [0x2A, 0x2E, 0x6F] [0x62, 0x2E, 0x6F]) := by
  have hline : ∀ c ∈ [0x61, 0x2F, 0x62, 0x2E, 0x6F], OnLine c := by decide +kernel
  have hfree : [0x2A, 0x2E, 0x6F].head? ≠ some (0x2F : UInt8) := by decide
  have hname : NameOnly (withoutSlash [0x2A, 0x2E, 0x6F]) := by decide
  obtain ⟨rule, hrule, hmatch⟩ := glob_exact false hfree hline
  rw [if_pos hname] at hmatch
  exact ⟨hline, rule, hrule, hmatch⟩

/-! ## Anchored patterns -/

theorem body_anchored (included : Bool) (pattern : Bytes) :
    FilterRule.body ⟨included, 0x2F :: pattern⟩ = withoutSlash pattern := by
  cases pattern with
  | nil => rfl
  | cons c rest =>
    unfold FilterRule.body withoutSlash
    rw [List.getLast?_cons_cons]
    split_ifs
    · rfl
    · rfl

theorem anchored_of_not_nameOnly (included : Bool) {pattern : Bytes}
    (h : ¬NameOnly (withoutSlash pattern)) : FilterRule.Anchored ⟨included, 0x2F :: pattern⟩ := by
  cases pattern with
  | nil => exact absurd (by decide) h
  | cons c rest =>
    unfold FilterRule.Anchored withoutSlash
    split_ifs
    · rfl
    · rfl

/-- The rule of "/P" matches what the glob P matches as a whole, if and only if the path is not
below the top level with a last component that a P without '/' and "**" matches, and "**" need not
stand for a line terminator. -/
theorem anchored_exact_iff (included : Bool) (pattern rel : Bytes) :
    ∃ rule, compileRule ⟨included, 0x2F :: pattern⟩ = some rule ∧
      ((rule.matches rel (basename rel) = true ↔ GlobMatches (withoutSlash pattern) rel) ↔
        (NameOnly (withoutSlash pattern) → 0x2F ∈ rel →
          ¬GlobMatches (withoutSlash pattern) (basename rel)) ∧
        (GlobMatches (withoutSlash pattern) rel →
          globMatches 0x2F OnLine (globOf (withoutSlash pattern)) rel)) := by
  have hbody := body_anchored included pattern
  generalize hp : withoutSlash pattern = p at hbody
  by_cases hname : NameOnly p
  · obtain ⟨rule, hrule, honly, hmatch⟩ := compileRule_whole (.inl (hbody ▸ hname))
    refine ⟨rule, hrule, ?_⟩
    have hshallow : Shallow 0x2F (globOf p) := shallow_wildcards hname.1 hname.2
    have hline : ∀ s, globMatches 0x2F OnLine (globOf p) s ↔
        GlobMatches p s := fun s => hshallow.globMatches_iff
    rw [hbody, decide_eq_true hname] at honly
    rw [Rule.matches, honly, if_pos rfl, hmatch, hbody, hline, hline]
    by_cases hdeep : 0x2F ∈ rel
    · -- no wildcard left crosses a '/', so that the glob matches nothing below the top level
      have hnone : ¬GlobMatches p rel := fun h => hshallow.sep_notMem h hdeep
      refine ⟨fun h => ⟨fun _ _ hbase => hnone (h.mp hbase), id⟩, fun h => ?_⟩
      exact iff_of_false (h.1 hname hdeep) hnone
    · rw [basename_of_notMem hdeep]
      exact iff_of_true Iff.rfl ⟨fun _ hmem => absurd hmem hdeep, id⟩
  · have hanchored := anchored_of_not_nameOnly included (hp ▸ hname)
    obtain ⟨rule, hrule, honly, hmatch⟩ := compileRule_whole (.inr hanchored)
    refine ⟨rule, hrule, ?_⟩
    rw [hbody, decide_eq_false hname] at honly
    rw [Rule.matches, honly, hmatch, hbody]
    have hmono : globMatches 0x2F OnLine (globOf p) rel → GlobMatches p rel :=
      globMatches_mono fun _ _ _ => trivial
    exact ⟨fun h => ⟨fun h' => absurd h' hname, h.mpr⟩, fun h => ⟨hmono, h.2⟩⟩

/-- "/a" matches "b/a". -/
theorem anchored_matches_below : ∃ rule, compileRule ⟨false, [0x2F, 0x61]⟩ = some rule ∧
    rule.matches [0x62, 0x2F, 0x61] (basename [0x62, 0x2F, 0x61]) = true ∧
    ¬GlobMatches [0x61] [0x62, 0x2F, 0x61] := by
  refine ⟨_, rfl, by decide, ?_⟩
  have hshallow : Shallow 0x2F (globOf [0x61]) := ⟨by decide, by decide⟩
  exact fun h => hshallow.sep_notMem h (by decide)

end Dicker.Client
