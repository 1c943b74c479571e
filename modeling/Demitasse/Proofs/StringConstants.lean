import Demitasse.Ir.Written
import Demitasse.Proofs.Spelling

/-! String constants as the intermediate language reads them. In the body of a constant a backslash with two
hexadecimal digits behind it is the byte of that number, and any other character stands for itself. Each byte of a
text is written as one such unit, and in characters that end neither the body nor the line. -/

namespace Demitasse.Written

/-- The value of a hexadecimal digit, in capitals or not. -/
def hexValue? (c : Char) : Option Nat :=
  if c.isDigit then some (c.toNat - '0'.toNat)
  else if 'a' ≤ c ∧ c ≤ 'f' then some (c.toNat - 'a'.toNat + 10)
  else if 'A' ≤ c ∧ c ≤ 'F' then some (c.toNat - 'A'.toNat + 10)
  else none

/-- A body starts with a backslash and two hexadecimal digits. -/
def StartsEscape (body : List Char) : Prop :=
  ∃ high low rest, body = '\\' :: high :: low :: rest ∧ (hexValue? high).isSome ∧ (hexValue? low).isSome

/-- The bytes that a body stands for. -/
inductive Decodes : List Char → List UInt8 → Prop
  | nil : Decodes [] []
  | escape {high low : Char} {h l : Nat} {rest : List Char} {bytes : List UInt8} (hhigh : hexValue? high = some h)
      (hlow : hexValue? low = some l) (hrest : Decodes rest bytes) :
      Decodes ('\\' :: high :: low :: rest) (.ofNat (16 * h + l) :: bytes)
  | plain {c : Char} {rest : List Char} {bytes : List UInt8} (hplain : ¬ StartsEscape (c :: rest))
      (hrest : Decodes rest bytes) : Decodes (c :: rest) (String.utf8EncodeChar c ++ bytes)

section
variable {body rest : List Char} {bytes bytes' : List UInt8} {high low c : Char} {h l : Nat}

theorem startsEscape_of_hexValue? (hhigh : hexValue? high = some h) (hlow : hexValue? low = some l) (rest : List Char) :
    StartsEscape ('\\' :: high :: low :: rest) :=
  ⟨high, low, rest, rfl, Option.isSome_of_eq_some hhigh, Option.isSome_of_eq_some hlow⟩

theorem not_startsEscape (hc : c ≠ '\\') (rest : List Char) : ¬ StartsEscape (c :: rest) := by
  rintro ⟨_, _, _, heq, -⟩
  exact hc (List.cons.inj heq).1

/-- A body stands for one list of bytes only. -/
theorem Decodes.unique (hbytes : Decodes body bytes) (hbytes' : Decodes body bytes') : bytes = bytes' := by
  induction hbytes generalizing bytes' with
  | nil =>
      cases hbytes'
      rfl
  | escape hhigh hlow _ ih =>
      cases hbytes' with
      | escape hhigh' hlow' hrest' =>
          cases hhigh.symm.trans hhigh'
          cases hlow.symm.trans hlow'
          rw [ih hrest']
      | plain hplain _ => exact absurd (startsEscape_of_hexValue? hhigh hlow _) hplain
  | plain hplain _ ih =>
      cases hbytes' with
      | escape hhigh hlow _ => exact absurd (startsEscape_of_hexValue? hhigh hlow _) hplain
      | plain _ hrest' => rw [ih hrest']

end

/-- Characters that end neither a body nor its line. -/
def Clean (c : Char) : Prop :=
  c ≠ '"' ∧ c ≠ '\n' ∧ c.toNat < 128

/-- Every backslash starts an escape. -/
def Escaped (body : List Char) : Prop :=
  ∀ after, '\\' :: after <:+ body → StartsEscape ('\\' :: after)

section
variable {rest : List Char} {c high low : Char}

theorem escaped_nil : Escaped [] := by
  intro after h
  cases List.suffix_nil.mp h

theorem escaped_cons (hc : c = '\\' → StartsEscape (c :: rest)) (hrest : Escaped rest) : Escaped (c :: rest) := by
  intro after h
  rcases List.suffix_cons_iff.mp h with heq | hsuffix
  · cases heq
    exact hc rfl
  · exact hrest after hsuffix

/-- A digit of a byte has its value, and it is neither a backslash nor the end of anything. -/
theorem hexDigit_spec {n : Nat} (h : n < 16) :
    hexValue? (hexDigit n) = some n ∧ hexDigit n ≠ '\\' ∧ Clean (hexDigit n) := by
  unfold Clean
  decide +revert

/-- A byte is written as one character that stands for it, or as an escape of its number. -/
theorem stringByte_cases (byte : UInt8) :
    (∃ c, (stringByte byte).toList = [c] ∧ c ≠ '\\' ∧ Clean c ∧ String.utf8EncodeChar c = [byte]) ∨
    (stringByte byte).toList = ['\\', hexDigit (byte.toNat / 16), hexDigit (byte.toNat % 16)] := by
  rw [stringByte]
  split
  · rename_i hprintable
    simp only [Bool.and_eq_true, decide_eq_true_eq] at hprintable
    obtain ⟨⟨⟨hlow, hhigh⟩, hquote⟩, hbackslash⟩ := hprintable
    have hvalid : byte.toNat.isValidChar := .inl (by omega)
    have hchar : (Char.ofNat byte.toNat).toNat = byte.toNat := by
      rw [Char.ofNat, dif_pos hvalid]
      rfl
    have hne : ∀ {d : Char}, byte.toNat ≠ d.toNat → Char.ofNat byte.toNat ≠ d := by
      rintro d hd rfl
      exact hd hchar.symm
    refine .inl ⟨Char.ofNat byte.toNat, String.toList_singleton _, hne hbackslash, ⟨hne hquote, hne ?_, ?_⟩, ?_⟩
    · change byte.toNat ≠ 10
      omega
    · omega
    · change (Char.ofNat byte.toNat).val.toNat = byte.toNat at hchar
      rw [String.utf8EncodeChar, hchar, if_pos (by omega), UInt8.ofNat_toNat]
  · exact .inr String.toList_ofList

theorem toNat_div_lt (byte : UInt8) : byte.toNat / 16 < 16 := by
  have hlt := byte.toNat_lt
  omega

theorem toNat_mod_lt (byte : UInt8) : byte.toNat % 16 < 16 :=
  Nat.mod_lt _ (by decide)

/-- The characters that are written for bytes. -/
def stringBytes (bytes : List UInt8) : List Char :=
  bytes.flatMap fun byte => (stringByte byte).toList

/-- What is written for one byte more is read as that byte. -/
theorem Decodes.stringByte (byte : UInt8) {bytes : List UInt8} (h : Decodes rest bytes) :
    Decodes ((stringByte byte).toList ++ rest) (byte :: bytes) := by
  rcases stringByte_cases byte with ⟨c, hc, hne, -, hencode⟩ | hescape
  · rw [hc]
    have hplain := Decodes.plain (not_startsEscape hne rest) h
    rw [hencode] at hplain
    exact hplain
  · rw [hescape]
    have hbyte : UInt8.ofNat (16 * (byte.toNat / 16) + byte.toNat % 16) = byte := by
      rw [Nat.div_add_mod, UInt8.ofNat_toNat]
    have hread := Decodes.escape (hexDigit_spec (toNat_div_lt byte)).1 (hexDigit_spec (toNat_mod_lt byte)).1 h
    rw [hbyte] at hread
    exact hread

theorem decodes_stringBytes (bytes : List UInt8) : Decodes (stringBytes bytes) bytes := by
  induction bytes with
  | nil => exact .nil
  | cons byte bytes ih => exact ih.stringByte byte

theorem Escaped.stringByte (byte : UInt8) (h : Escaped rest) : Escaped ((stringByte byte).toList ++ rest) := by
  rcases stringByte_cases byte with ⟨c, hc, hne, -⟩ | hescape
  · rw [hc]
    exact escaped_cons (fun heq => absurd heq hne) h
  · obtain ⟨hhigh, hhigh', -⟩ := hexDigit_spec (toNat_div_lt byte)
    obtain ⟨hlow, hlow', -⟩ := hexDigit_spec (toNat_mod_lt byte)
    rw [hescape]
    -- behind the backslash itself come two digits, which are none
    refine escaped_cons (fun _ => startsEscape_of_hexValue? hhigh hlow rest) ?_
    exact escaped_cons (fun heq => absurd heq hhigh') (escaped_cons (fun heq => absurd heq hlow') h)

theorem escaped_stringBytes (bytes : List UInt8) : Escaped (stringBytes bytes) := by
  induction bytes with
  | nil => exact escaped_nil
  | cons byte bytes ih => exact ih.stringByte byte

theorem clean_stringBytes (bytes : List UInt8) : ∀ c ∈ stringBytes bytes, Clean c := by
  intro c hc
  obtain ⟨byte, -, hc⟩ := List.mem_flatMap.mp hc
  rcases stringByte_cases byte with ⟨d, hd, -, hclean, -⟩ | hescape
  · rw [hd] at hc
    rw [List.mem_singleton.mp hc]
    exact hclean
  · rw [hescape] at hc
    obtain rfl | rfl | rfl : c = '\\' ∨ c = hexDigit (byte.toNat / 16) ∨ c = hexDigit (byte.toNat % 16) := by
      simpa using hc
    · exact ⟨by decide, by decide, by decide⟩
    · exact (hexDigit_spec (toNat_div_lt byte)).2.2
    · exact (hexDigit_spec (toNat_mod_lt byte)).2.2

end

/-- The line that gives a name to a number of bytes, by a body in quotes. -/
def constantLine (name : String) (size : Nat) (body : String) : String :=
  name ++ " = constant [" ++ toString size ++ " x i8] c\"" ++ body ++ "\"\n"

/-- The number of bytes and the body can be read off the line. -/
theorem constantLine_inj {name : String} {size size' : Nat} {body body' : String}
    (h : constantLine name size body = constantLine name size' body') : size = size' ∧ body = body' := by
  have hlist := congrArg String.toList h
  simp only [constantLine, String.toList_append, List.append_assoc, List.append_cancel_left_eq] at hlist
  have hsize : ∀ (n : Nat) (rest : List Char),
      ((toString n).toList ++ (" x i8] c\"".toList ++ rest)).takeWhile Char.isDigit = (toString n).toList ∧
      ((toString n).toList ++ (" x i8] c\"".toList ++ rest)).dropWhile Char.isDigit = " x i8] c\"".toList ++ rest := by
    intro n rest
    have hdigits : ∀ c ∈ (toString n).toList, c.isDigit = true := fun c hc => isDigit_of_mem_toString hc
    rw [List.takeWhile_append_of_pos hdigits, List.dropWhile_append_of_pos hdigits]
    exact ⟨List.append_nil _, rfl⟩
  have htake := congrArg (List.takeWhile Char.isDigit) hlist
  have hdrop := congrArg (List.dropWhile Char.isDigit) hlist
  rw [(hsize _ _).1, (hsize _ _).1, String.toList_inj] at htake
  rw [(hsize _ _).2, (hsize _ _).2, List.append_cancel_left_eq, List.append_cancel_right_eq, String.toList_inj] at hdrop
  exact ⟨toString_inj htake, hdrop⟩

/-- The bytes of a text in UTF-8, and a zero byte. -/
def terminated (text : String) : List UInt8 :=
  text.toList.flatMap String.utf8EncodeChar ++ [0]

theorem toList_toUTF8 (text : String) : text.toUTF8.data.toList = text.toList.flatMap String.utf8EncodeChar := by
  rw [String.toUTF8, ← String.utf8Encode_toList, List.utf8Encode, List.toList_data_toByteArray]

theorem length_terminated (text : String) : (terminated text).length = text.utf8ByteSize + 1 := by
  rw [terminated, ← toList_toUTF8, List.length_append]
  rfl

theorem stringConstant_eq (name text : String) :
    stringConstant name text =
      constantLine name (terminated text).length (String.ofList (stringBytes (terminated text))) := by
  have hbody : (String.join (text.toUTF8.data.toList.map stringByte) ++ "\\00").toList =
      stringBytes (terminated text) := by
    rw [String.toList_append, String.toList_join, stringBytes, terminated, List.flatMap_append, ← toList_toUTF8,
      List.flatMap_map]
    rfl
  rw [← hbody, String.ofList_toList, length_terminated]
  simp only [stringConstant, constantLine, IrTy.text, String.append_assoc]
  rfl

/-- The line of a string constant has one number and one body. By the rule of escapes the body stands for the bytes
of the text with a zero byte behind them and for nothing else, and their number is the one in the line. The body has
no quote, no new line, no character outside of ASCII and no backslash that does not start an escape. -/
theorem stringConstant_faithful (name text : String) :
    ∃ size body, stringConstant name text = constantLine name size body ∧
      (∀ size' body', stringConstant name text = constantLine name size' body' → size' = size ∧ body' = body) ∧
      (∀ bytes, Decodes body.toList bytes ↔ bytes = terminated text) ∧
      (∀ bytes, Decodes body.toList bytes → size = bytes.length) ∧
      (∀ c ∈ body.toList, Clean c) ∧ Escaped body.toList := by
  refine ⟨_, _, stringConstant_eq name text, fun size' body' h => ?_, ?_⟩
  · exact constantLine_inj (h.symm.trans (stringConstant_eq name text))
  rw [String.toList_ofList]
  have hdecodes := decodes_stringBytes (terminated text)
  refine ⟨fun bytes => ⟨fun h => h.unique hdecodes, ?_⟩, fun bytes h => ?_, clean_stringBytes _, escaped_stringBytes _⟩
  · rintro rfl
    exact hdecodes
  · rw [h.unique hdecodes]

end Demitasse.Written
