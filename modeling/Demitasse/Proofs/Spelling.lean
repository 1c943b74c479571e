import Demitasse.Ir.Code
import Demitasse.Proofs.Lexing

/-! How names are written. The number of a label can be read off its text, so labels with different numbers
are written differently, whatever their stems are. A register that is named by a word, with or without a dot in
front, is written neither like a temporary nor like a label. -/

namespace Demitasse

theorem toString_inj {m n : Nat} (h : toString m = toString n) : m = n := by
  rw [Nat.toString_eq_ofList_toDigits, Nat.toString_eq_ofList_toDigits, String.ofList_inj] at h
  rw [← Nat.ofDigitChars_toDigits (b := 10) (by decide) (by decide) (n := m), h]
  exact Nat.ofDigitChars_toDigits (by decide) (by decide)

theorem isDigit_of_mem_toString {n : Nat} {c : Char} (h : c ∈ (toString n).toList) : c.isDigit = true := by
  rw [Nat.toString_eq_ofList_toDigits, String.toList_ofList] at h
  exact Nat.isDigit_of_mem_toDigits (by decide) (by decide) h

theorem dot_not_mem_toString (n : Nat) : '.' ∉ (toString n).toList := by
  intro h
  exact absurd (isDigit_of_mem_toString h) (by decide)

/-- What stands behind the last dot. -/
theorem eq_of_append_dot {a b d e : List Char} (hd : '.' ∉ d) (he : '.' ∉ e)
    (h : a ++ '.' :: d = b ++ '.' :: e) : d = e := by
  have hlast : ∀ {cs fs : List Char}, '.' ∉ fs → (cs ++ '.' :: fs).reverse.takeWhile (· ≠ '.') = fs.reverse := by
    intro cs fs hfs
    rw [List.reverse_append, List.reverse_cons, List.append_assoc, List.takeWhile_append_of_pos]
    · simp
    · intro c hc
      have hne : c ≠ '.' := by
        rintro rfl
        exact hfs (List.mem_reverse.mp hc)
      simpa using hne
  rw [← List.reverse_inj, ← hlast hd, h, hlast he]

namespace Label

variable {l m : Label}

theorem toList_text (l : Label) : l.text.toList = l.stem.toList ++ '.' :: (toString l.index).toList := by
  simp [text]

theorem index_eq_of_text_eq (h : l.text = m.text) : l.index = m.index := by
  have hlist := congrArg String.toList h
  rw [toList_text, toList_text] at hlist
  apply toString_inj
  rw [← String.toList_inj]
  exact eq_of_append_dot (dot_not_mem_toString _) (dot_not_mem_toString _) hlist

theorem nodup_text {ls : List Label} (h : (ls.map index).Nodup) : (ls.map text).Nodup := by
  rw [List.nodup_iff_pairwise_ne, List.pairwise_map] at h ⊢
  exact h.imp fun hne heq => hne (index_eq_of_text_eq heq)

theorem toList_ne_of_dot_not_mem {name : List Char} (h : '.' ∉ name) : l.text.toList ≠ name := by
  rintro rfl
  apply h
  rw [toList_text]
  exact List.mem_append_right _ List.mem_cons_self

end Label

theorem IsWord.dot_not_mem {text : List Char} (h : IsWord text) : '.' ∉ text := by
  obtain ⟨c, cs, rfl, hc, hcs⟩ := h
  rw [List.mem_cons, not_or]
  constructor
  · rintro rfl
    exact absurd hc (by decide)
  · intro hmem
    exact absurd (hcs _ hmem) (by decide)

/-- A word does not look like a number. -/
theorem IsWord.ne_toString {text : List Char} (h : IsWord text) (n : Nat) : text ≠ (toString n).toList := by
  obtain ⟨c, cs, rfl, hc, _⟩ := h
  intro heq
  have hdigit : c.isDigit = true := isDigit_of_mem_toString (heq ▸ List.mem_cons_self)
  rw [isDigit_eq_false_of_isAlpha hc] at hdigit
  cases hdigit

/-- The names of registers: words, and words behind a dot. -/
def IsRegName (name : String) : Prop :=
  IsWord name.toList ∨ ∃ word, name.toList = '.' :: word ∧ IsWord word

namespace Reg

/-- A temporary, or a register with a proper name. -/
def Clear : Reg → Prop
  | .temp _ => True
  | .named name => IsRegName name

theorem toList_text_temp (n : Nat) : (temp n).text.toList = '%' :: '_' :: (toString n).toList := by
  simp [text]

theorem toList_text_named (name : String) : (named name).text.toList = '%' :: name.toList := by
  simp [text]

/-- A temporary, or a register that is not named like one. -/
def Shown : Reg → Prop
  | .temp _ => True
  | .named name => name.toList.head? ≠ some '_'

theorem Clear.shown {r : Reg} (h : r.Clear) : r.Shown := by
  cases r with
  | temp n => trivial
  | named name =>
      rcases h with ⟨c, cs, hname, hc, _⟩ | ⟨word, hname, _⟩
      · rw [Shown, hname, List.head?_cons]
        rintro ⟨⟩
        exact absurd hc (by decide)
      · rw [Shown, hname, List.head?_cons]
        decide

theorem text_temp_ne_named {n : Nat} {name : String} (h : (named name).Shown) : (temp n).text ≠ (named name).text := by
  intro heq
  have hlist := congrArg String.toList heq
  rw [toList_text_temp, toList_text_named, List.cons_inj_right] at hlist
  exact h (congrArg List.head? hlist).symm

/-- Different registers are written differently, whatever is in their names behind the first character. -/
theorem eq_of_text_eq {r q : Reg} (hr : r.Shown) (hq : q.Shown) (h : r.text = q.text) : r = q := by
  cases r with
  | temp m =>
      cases q with
      | temp n =>
          have hlist := congrArg String.toList h
          rw [toList_text_temp, toList_text_temp, List.cons_inj_right, List.cons_inj_right,
            String.toList_inj] at hlist
          rw [toString_inj hlist]
      | named name => exact absurd h (text_temp_ne_named hq)
  | named name =>
      cases q with
      | temp n => exact absurd h.symm (text_temp_ne_named hr)
      | named name' =>
          have hlist := congrArg String.toList h
          rw [toList_text_named, toList_text_named, List.cons_inj_right, String.toList_inj] at hlist
          rw [hlist]

theorem text_inj {r q : Reg} (hr : r.Clear) (hq : q.Clear) (h : r.text = q.text) : r = q :=
  eq_of_text_eq hr.shown hq.shown h

/-- Registers are not written like labels. -/
theorem text_ne_label {r : Reg} (h : r.Clear) (l : Label) : r.text ≠ "%" ++ l.text := by
  intro heq
  have hlist := congrArg String.toList heq
  rw [String.toList_append, show "%".toList = ['%'] from rfl, List.cons_append, List.nil_append] at hlist
  cases r with
  | temp n =>
      rw [toList_text_temp, List.cons_inj_right] at hlist
      refine l.toList_ne_of_dot_not_mem ?_ hlist.symm
      rw [List.mem_cons, not_or]
      exact ⟨by decide, dot_not_mem_toString n⟩
  | named name =>
      rw [toList_text_named, List.cons_inj_right] at hlist
      rcases h with hword | ⟨word, hname, hword⟩
      · exact l.toList_ne_of_dot_not_mem hword.dot_not_mem hlist.symm
      · rw [hname, Label.toList_text] at hlist
        have hlast := eq_of_append_dot (a := []) hword.dot_not_mem (dot_not_mem_toString _) hlist
        exact hword.ne_toString _ hlast

/-- Nor like labels without the mark of registers: a label that starts with the mark itself is written like another
one behind the mark. -/
theorem text_ne_bare_label {r : Reg} (h : r.Clear) (l : Label) : r.text ≠ l.text := by
  intro heq
  have hmark : ∃ cs, r.text.toList = '%' :: cs := by
    cases r with
    | temp n => exact ⟨_, toList_text_temp n⟩
    | named name => exact ⟨_, toList_text_named name⟩
  obtain ⟨cs, hcs⟩ := hmark
  have hlist := hcs.symm.trans ((congrArg String.toList heq).trans l.toList_text)
  cases hstem : l.stem.toList with
  | nil =>
      rw [hstem, List.nil_append, List.cons.injEq] at hlist
      exact absurd hlist.1 (by decide)
  | cons c rest =>
      rw [hstem, List.cons_append, List.cons.injEq] at hlist
      refine text_ne_label h ⟨String.ofList rest, l.index⟩ (String.toList_inj.mp ?_)
      rw [hcs, hlist.2, String.toList_append, show "%".toList = ['%'] from rfl, Label.toList_text,
        String.toList_ofList]
      rfl

end Reg

end Demitasse
