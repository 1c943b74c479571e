import Demitasse.Token.Scan
import Mathlib.Computability.Language
import Mathlib.Data.List.Chain
import Mathlib.Order.CompletePartialOrder

/-! Patterns of texts, written as languages: classes of characters, fixed texts, and what is put together from them. The
pattern of block comments goes round for every star that does not close the comment. It is shown to match the texts
that start with the opening mark and end with the first closing mark behind it, and no others. -/

namespace Demitasse

open Computability

/-- The texts of one character, which is in a class. -/
def charIn (inClass : Char → Bool) : Language Char :=
  {w | ∃ c, inClass c = true ∧ w = [c]}

/-- One or more characters of a class. -/
def someIn (inClass : Char → Bool) : Language Char :=
  charIn inClass * (charIn inClass)∗

/-- A fixed text. -/
def exactly (text : List Char) : Language Char :=
  {text}

section
variable {inClass : Char → Bool} {w : List Char} {c : Char}

theorem singleton_mem_charIn (h : inClass c = true) : [c] ∈ charIn inClass :=
  ⟨c, h, rfl⟩

theorem mem_exactly {text : List Char} : w ∈ exactly text ↔ w = text :=
  Iff.rfl

theorem mem_kstar_charIn : w ∈ (charIn inClass)∗ ↔ ∀ c ∈ w, inClass c = true := by
  constructor
  · intro h
    obtain ⟨chars, rfl, hchars⟩ := Language.mem_kstar.mp h
    intro c hc
    obtain ⟨_, hmem, hc⟩ := List.mem_flatten.mp hc
    obtain ⟨d, hd, rfl⟩ := hchars _ hmem
    rw [List.mem_singleton.mp hc]
    exact hd
  · intro h
    refine Language.mem_kstar.mpr ⟨w.map fun c => [c], ?_, ?_⟩
    · rw [← List.flatMap_def, List.flatMap_singleton']
    · rintro _ hmem
      obtain ⟨c, hc, rfl⟩ := List.mem_map.mp hmem
      exact singleton_mem_charIn (h c hc)

/-- A word of a pattern that starts with a character of a class. -/
theorem mem_charIn_mul {L : Language Char} :
    w ∈ charIn inClass * L ↔ ∃ c rest, w = c :: rest ∧ inClass c = true ∧ rest ∈ L := by
  constructor
  · intro h
    obtain ⟨_, ⟨c, hc, rfl⟩, rest, hrest, rfl⟩ := Language.mem_mul.mp h
    exact ⟨c, rest, rfl, hc, hrest⟩
  · rintro ⟨c, rest, rfl, hc, hrest⟩
    exact Language.mem_mul.mpr ⟨[c], singleton_mem_charIn hc, rest, hrest, rfl⟩

/-- A class for the first character and a class for all others. -/
theorem mem_charIn_mul_kstar {others : Char → Bool} :
    w ∈ charIn inClass * (charIn others)∗ ↔
      ∃ c rest, w = c :: rest ∧ inClass c = true ∧ ∀ d ∈ rest, others d = true := by
  simp only [mem_charIn_mul, mem_kstar_charIn]

theorem mem_exactly_mul {text : List Char} {L : Language Char} :
    w ∈ exactly text * L ↔ ∃ rest, w = text ++ rest ∧ rest ∈ L := by
  constructor
  · intro h
    obtain ⟨_, rfl, rest, hrest, rfl⟩ := Language.mem_mul.mp h
    exact ⟨rest, rfl, hrest⟩
  · rintro ⟨rest, rfl, hrest⟩
    exact Language.mem_mul.mpr ⟨_, rfl, rest, hrest, rfl⟩

theorem mem_mul_exactly {text : List Char} {L : Language Char} :
    w ∈ L * exactly text ↔ ∃ front, w = front ++ text ∧ front ∈ L := by
  constructor
  · intro h
    obtain ⟨front, hfront, _, rfl, rfl⟩ := Language.mem_mul.mp h
    exact ⟨front, rfl, hfront⟩
  · rintro ⟨front, rfl, hfront⟩
    exact Language.mem_mul.mpr ⟨front, hfront, _, rfl, rfl⟩

end

/-- The mark that opens a block comment. -/
def openMark : List Char :=
  ['/', '*']

/-- The mark that closes a block comment. -/
def closeMark : List Char :=
  ['*', '/']

/-- No closing mark stands anywhere in a text. -/
def Unclosed (u : List Char) : Prop :=
  ¬ closeMark <:+: u

instance (u : List Char) : Decidable (Unclosed u) :=
  inferInstanceAs (Decidable (¬ closeMark <:+: u))

/-- Characters other than a star. -/
def isPlain (c : Char) : Bool :=
  c ≠ '*'

/-- Characters that may follow a star without closing the comment and without being a star. -/
def isInterior (c : Char) : Bool :=
  c ≠ '/' && c ≠ '*'

/-- Some characters that are no stars, and then one or more stars. -/
def upToStars : Language Char :=
  (charIn isPlain)∗ * someIn (· = '*')

/-- Text up to a run of stars, and on to the next one as long as the character behind the stars does not close the
comment. -/
def starred : Language Char :=
  upToStars * (charIn isInterior * upToStars)∗

/-- The pattern of block comments. -/
def blockComment : Language Char :=
  exactly openMark * starred * exactly ['/']

/-- No closing mark, told by neighbouring characters. -/
theorem unclosed_iff_isChain {u : List Char} : Unclosed u ↔ u.IsChain fun a b => ¬ (a = '*' ∧ b = '/') := by
  rw [List.isChain_iff_forall_rel_of_append_cons_cons, Unclosed]
  constructor
  · rintro h _ _ before after rfl ⟨rfl, rfl⟩
    exact h ⟨before, after, by simp [closeMark]⟩
  · rintro h ⟨before, after, heq⟩
    have hsplit : u = before ++ '*' :: '/' :: after := by
      rw [← heq, List.append_assoc]
      rfl
    exact h hsplit ⟨rfl, rfl⟩

theorem unclosed_nil : Unclosed [] := by
  rintro ⟨before, after, heq⟩
  simp [closeMark] at heq

theorem unclosed_cons {c : Char} {u : List Char} :
    Unclosed (c :: u) ↔ (c = '*' → u.head? ≠ some '/') ∧ Unclosed u := by
  rw [unclosed_iff_isChain, unclosed_iff_isChain, List.isChain_cons]
  constructor
  · rintro ⟨hhead, hu⟩
    exact ⟨fun hc hslash => hhead '/' hslash ⟨hc, rfl⟩, hu⟩
  · rintro ⟨hhead, hu⟩
    refine ⟨fun d hd hmark => hhead hmark.1 ?_, hu⟩
    rw [← hmark.2]
    exact hd

theorem unclosed_append_cons {u v : List Char} {c : Char} (hu : Unclosed u) (hc : c ≠ '/') (hv : Unclosed (c :: v)) :
    Unclosed (u ++ c :: v) := by
  rw [unclosed_iff_isChain] at hu hv ⊢
  refine List.isChain_append.mpr ⟨hu, hv, ?_⟩
  rintro a _ d ⟨⟩ ⟨_, hd⟩
  exact hc hd

/-- Texts that end with a star and in which the comment is not closed. -/
def pending : Language Char :=
  {t | Unclosed t ∧ ∃ u, t = u ++ ['*']}

theorem star_le_pending : charIn (· = '*') ≤ pending := by
  rintro _ ⟨c, hc, rfl⟩
  obtain rfl := of_decide_eq_true hc
  refine ⟨unclosed_cons.mpr ⟨fun _ h => ?_, unclosed_nil⟩, [], rfl⟩
  cases h

theorem pending_star_le : pending * charIn (· = '*') ≤ pending := by
  intro t ht
  obtain ⟨u, ⟨hu, -⟩, _, ⟨c, hc, rfl⟩, rfl⟩ := Language.mem_mul.mp ht
  obtain ⟨hstar, -⟩ := star_le_pending (singleton_mem_charIn hc)
  obtain rfl := of_decide_eq_true hc
  exact ⟨unclosed_append_cons hu (by decide) hstar, u, rfl⟩

theorem plain_pending_le : charIn isPlain * pending ≤ pending := by
  intro t ht
  obtain ⟨c, _, rfl, hc, hrest, u, rfl⟩ := mem_charIn_mul.mp ht
  refine ⟨unclosed_cons.mpr ⟨fun hstar => ?_, hrest⟩, c :: u, rfl⟩
  exact absurd hstar (of_decide_eq_true hc)

theorem upToStars_le_pending : upToStars ≤ pending :=
  kstar_mul_le (mul_kstar_le star_le_pending pending_star_le) plain_pending_le

theorem pending_interior_le : pending * (charIn isInterior * upToStars) ≤ pending := by
  intro t ht
  obtain ⟨front, ⟨hfront, -⟩, _, hrest, rfl⟩ := Language.mem_mul.mp ht
  obtain ⟨c, rest, rfl, hc, hrest⟩ := mem_charIn_mul.mp hrest
  obtain ⟨hslash, hstar⟩ := Bool.and_eq_true_iff.mp hc
  obtain ⟨hunclosed, u, rfl⟩ := upToStars_le_pending hrest
  refine ⟨unclosed_append_cons hfront (of_decide_eq_true hslash) ?_, front ++ c :: u, by simp⟩
  exact unclosed_cons.mpr ⟨fun h => absurd h (of_decide_eq_true hstar), hunclosed⟩

theorem starred_le_pending : starred ≤ pending :=
  mul_kstar_le upToStars_le_pending pending_interior_le

/-- What may follow a star: more stars, or a character that is none and does not close the comment, and so on. -/
def afterStar : Language Char :=
  (charIn (· = '*'))∗ * (charIn isInterior * upToStars)∗

theorem star_mem_afterStar : ['*'] ∈ afterStar := by
  have hstar : ['*'] ∈ (charIn (· = '*'))∗ := mem_kstar_charIn.mpr (List.forall_mem_singleton.mpr rfl)
  exact Language.mem_mul.mpr ⟨['*'], hstar, [], Language.nil_mem_kstar _, rfl⟩

theorem star_afterStar_le : charIn (· = '*') * afterStar ≤ afterStar := by
  rw [afterStar, ← mul_assoc]
  exact mul_le_mul_left mul_kstar_le_kstar _

theorem interior_starred_le : charIn isInterior * starred ≤ afterStar := by
  rw [starred, ← mul_assoc]
  have hempty : (charIn isInterior * upToStars)∗ ≤ afterStar :=
    le_mul_of_one_le_left' one_le_kstar
  exact mul_kstar_le_kstar.trans hempty

theorem star_afterStar_le_starred : charIn (· = '*') * afterStar ≤ starred := by
  rw [afterStar, starred, upToStars, someIn, ← mul_assoc]
  exact mul_le_mul_left (le_mul_of_one_le_left' one_le_kstar) _

theorem plain_starred_le : charIn isPlain * starred ≤ starred := by
  rw [starred, upToStars, ← mul_assoc, ← mul_assoc]
  exact mul_le_mul_left (mul_le_mul_left mul_kstar_le_kstar _) _

/-- A text without closing mark is matched up to a star behind it; behind a star it must not start with a slash. -/
theorem append_star_mem_starred {u : List Char} (h : Unclosed u) :
    u ++ ['*'] ∈ starred ∧ (u.head? ≠ some '/' → u ++ ['*'] ∈ afterStar) := by
  induction u with
  | nil =>
      have hstar : ['*'] ++ [] ∈ charIn (· = '*') * afterStar :=
        Language.append_mem_mul (singleton_mem_charIn rfl)
          (Language.mem_mul.mpr ⟨[], Language.nil_mem_kstar _, [], Language.nil_mem_kstar _, rfl⟩)
      exact ⟨star_afterStar_le_starred hstar, fun _ => star_mem_afterStar⟩
  | cons c u ih =>
      obtain ⟨hhead, hu⟩ := unclosed_cons.mp h
      obtain ⟨hstarred, hafter⟩ := ih hu
      by_cases hc : c = '*'
      · have hmem : c :: (u ++ ['*']) ∈ charIn (· = '*') * afterStar :=
          mem_charIn_mul.mpr ⟨c, _, rfl, decide_eq_true hc, hafter (hhead hc)⟩
        exact ⟨star_afterStar_le_starred hmem, fun _ => star_afterStar_le hmem⟩
      · refine ⟨plain_starred_le (mem_charIn_mul.mpr ⟨c, _, rfl, decide_eq_true hc, hstarred⟩), fun hslash => ?_⟩
        have hinterior : isInterior c = true :=
          Bool.and_eq_true_iff.mpr ⟨decide_eq_true fun h => hslash (congrArg some h), decide_eq_true hc⟩
        exact interior_starred_le (mem_charIn_mul.mpr ⟨c, _, rfl, hinterior, hstarred⟩)

/-- The pattern matches what stands between the opening mark and the first closing mark, with both marks. -/
theorem mem_blockComment {w : List Char} :
    w ∈ blockComment ↔ ∃ u, w = openMark ++ u ++ closeMark ∧ Unclosed u := by
  rw [blockComment, mul_assoc, mem_exactly_mul]
  simp only [mem_mul_exactly]
  constructor
  · rintro ⟨_, rfl, t, rfl, ht⟩
    obtain ⟨hunclosed, u, rfl⟩ := starred_le_pending ht
    refine ⟨u, by simp [closeMark], fun hclosed => hunclosed (hclosed.trans (List.prefix_append _ _).isInfix)⟩
  · rintro ⟨u, rfl, hu⟩
    refine ⟨u ++ closeMark, List.append_assoc _ _ _, u ++ ['*'], by simp [closeMark], ?_⟩
    exact (append_star_mem_starred hu).1

section
variable {cs u body after : List Char}

theorem commentBody_of_unclosed (hu : Unclosed u) (after : List Char) :
    commentBody (u ++ closeMark ++ after) = some (u ++ closeMark, after) := by
  induction u with
  | nil => rfl
  | cons c u ih =>
      obtain ⟨hhead, hu⟩ := unclosed_cons.mp hu
      rw [List.cons_append, List.cons_append, commentBody, ih hu]
      · rfl
      · -- the character and the one behind it are not the mark
        rintro rest rfl heq
        cases u with
        | nil => cases heq
        | cons d u =>
            cases heq
            exact hhead rfl rfl

theorem unclosed_of_commentBody (h : commentBody cs = none) : Unclosed cs := by
  fun_induction commentBody cs with
  | case1 => exact unclosed_nil
  | case2 rest => cases h
  | case3 c rest hne ih =>
      refine unclosed_cons.mpr ⟨fun hstar hslash => ?_, ih (Option.map_eq_none_iff.mp h)⟩
      cases rest with
      | nil => cases hslash
      | cons d rest => exact hne rest hstar (congrArg (· :: rest) (Option.some.inj hslash))

theorem exists_of_commentBody (h : commentBody cs = some (body, after)) :
    ∃ u, body = u ++ closeMark ∧ Unclosed u := by
  fun_induction commentBody cs generalizing body after with
  | case1 => cases h
  | case2 rest =>
      cases h
      exact ⟨[], rfl, unclosed_nil⟩
  | case3 c rest hne ih =>
      obtain ⟨⟨b, a⟩, hb, heq⟩ := Option.map_eq_some_iff.mp h
      cases heq
      obtain ⟨u, rfl, hu⟩ := ih hb
      refine ⟨c :: u, rfl, unclosed_cons.mpr ⟨fun hstar hslash => ?_, hu⟩⟩
      have hrest := Piece.commentBody_append hb
      cases u with
      | nil => cases hslash
      | cons d u =>
          cases hslash
          exact hne _ hstar hrest.symm

end

end Demitasse
