import Iotic.Lib.JsonText

/-!
# Strings of JSON text

Any text can stand in a string or be a key: quotes, backslashes and control bytes are
escaped.
-/

namespace JsonText
open ByteString

/- UTF-8 of some characters. -/
def Utf8 (text : Bytes) : Prop := ∃ cs : List Char, cs.flatMap String.utf8EncodeChar = text

theorem isValidUTF8_iff (text : Bytes) : text.toByteArray.IsValidUTF8 ↔ Utf8 text := by
  constructor
  · rintro ⟨cs, h⟩
    exact ⟨cs, (List.toByteArray_inj.mp h).symm⟩
  · rintro ⟨cs, h⟩
    exact ⟨cs, by rw [← h]; rfl⟩

instance (text : Bytes) : Decidable (Utf8 text) := decidable_of_iff _ (isValidUTF8_iff text)

namespace Format
variable {A : Type}

/-! ### Escapes -/

def hexDigit (n : UInt8) : UInt8 := if n < 10 then 48 + n else 87 + n

def hexValue (b : UInt8) : UInt8 := if b < 58 then b - 48 else if b < 71 then b - 55 else b - 87

def escape (b : UInt8) : Bytes :=
  if b = quote ∨ b = backslash then [backslash, b]
  else if b < 32 then [backslash, 117, 48, 48, hexDigit (b / 16), hexDigit (b % 16)]
  else [b]

/- What stands for itself behind a backslash, and the five letters that do not. -/
def unescape (b : UInt8) : Option UInt8 :=
  if b = quote ∨ b = backslash ∨ b = 47 then some b
  else [(98, 8), (102, 12), (110, 10), (114, 13), (116, 9)].lookup b

def writeString (text : Bytes) : Bytes := quote :: (text.flatMap escape ++ [quote])

/- Up to the closing quote. Only bytes below 128 are read from four hexadecimal digits. -/
def readChars : Bytes → Option (Bytes × Bytes)
  | [] => none
  | b :: bs =>
    if b = quote then some ([], bs)
    else if b = backslash then
      match bs with
      | u :: h1 :: h2 :: h3 :: h4 :: rest =>
        if u = 117 then
          if h1 = 48 ∧ h2 = 48 ∧ hexValue h3 < 8 then
            (readChars rest).map fun r => ((hexValue h3 * 16 + hexValue h4) :: r.1, r.2)
          else none
        else (unescape u).bind fun c =>
          (readChars (h1 :: h2 :: h3 :: h4 :: rest)).map fun r => (c :: r.1, r.2)
      | u :: rest => (unescape u).bind fun c => (readChars rest).map fun r => (c :: r.1, r.2)
      | [] => none
    else (readChars bs).map fun r => (b :: r.1, r.2)

def readString : Bytes → Option (Bytes × Bytes)
  | q :: bs => if q = quote then readChars bs else none
  | [] => none

theorem readChars_quote (rest : Bytes) : readChars (quote :: rest) = some ([], rest) := by
  rw [readChars.eq_def]
  rfl

theorem readChars_plain {b : UInt8} (hquote : b ≠ quote) (hbackslash : b ≠ backslash) (bs : Bytes) :
    readChars (b :: bs) = (readChars bs).map fun r => (b :: r.1, r.2) := by
  rw [readChars.eq_def]
  simp only [if_neg hquote, if_neg hbackslash]

/- Behind a backslash a quote or a backslash. -/
theorem readChars_escaped {b : UInt8} (h : b = quote ∨ b = backslash) (bs : Bytes) :
    readChars (backslash :: b :: bs) = (readChars bs).map fun r => (b :: r.1, r.2) := by
  have hself : unescape b = some b := by
    unfold unescape
    rw [if_pos (by tauto)]
  have hu : b ≠ 117 := by rcases h with rfl | rfl <;> decide
  rw [readChars.eq_def]
  simp only [show backslash ≠ quote by decide, if_false, if_true]
  rcases bs with _ | ⟨h1, _ | ⟨h2, _ | ⟨h3, _ | ⟨h4, bs⟩⟩⟩⟩ <;>
    simp only [hself, if_neg hu, Option.bind_some]

theorem readChars_hex (h3 h4 : UInt8) (h : hexValue h3 < 8) (bs : Bytes) :
    readChars (backslash :: 117 :: 48 :: 48 :: h3 :: h4 :: bs) =
      (readChars bs).map fun r => ((hexValue h3 * 16 + hexValue h4) :: r.1, r.2) := by
  rw [readChars.eq_def]
  simp only [show backslash ≠ quote by decide, if_false, if_true, true_and, if_pos h]

/- The digits of a control byte. -/
theorem hexValue_hexDigit {b : UInt8} (h : b < 32) :
    hexValue (hexDigit (b / 16)) < 8 ∧
      hexValue (hexDigit (b / 16)) * 16 + hexValue (hexDigit (b % 16)) = b := by
  have hall : ∀ n < 32, hexValue (hexDigit (UInt8.ofNat n / 16)) < 8 ∧
      hexValue (hexDigit (UInt8.ofNat n / 16)) * 16 + hexValue (hexDigit (UInt8.ofNat n % 16)) =
        UInt8.ofNat n := by decide
  have hb := hall b.toNat (UInt8.lt_iff_toNat_lt.mp h)
  rwa [UInt8.ofNat_toNat] at hb

theorem readChars_escape (b : UInt8) (bs : Bytes) :
    readChars (escape b ++ bs) = (readChars bs).map fun r => (b :: r.1, r.2) := by
  unfold escape
  split_ifs with hself hcontrol
  · exact readChars_escaped hself bs
  · obtain ⟨hsmall, hvalue⟩ := hexValue_hexDigit hcontrol
    show readChars (backslash :: 117 :: 48 :: 48 :: hexDigit (b / 16) :: hexDigit (b % 16) :: bs) = _
    rw [readChars_hex _ _ hsmall, hvalue]
  · rw [not_or] at hself
    exact readChars_plain hself.1 hself.2 bs

theorem readChars_flatMap (text rest : Bytes) :
    readChars (text.flatMap escape ++ quote :: rest) = some (text, rest) := by
  induction text with
  | nil => exact readChars_quote rest
  | cons b text ih =>
    rw [List.flatMap_cons, List.append_assoc, readChars_escape, ih]
    rfl

theorem readString_writeString (text rest : Bytes) :
    readString (writeString text ++ rest) = some (text, rest) := by
  have hchars := readChars_flatMap text rest
  rw [writeString, List.cons_append, List.append_assoc, readString, if_pos rfl]
  exact hchars

def string : Format Bytes where
  write := writeString
  read := readString
  Writable := Utf8
  read_write := fun _ rest _ => readString_writeString _ rest
  opens := fun _ => ⟨quote, _, rfl, by decide, by decide⟩

/-! ### Objects with any keys -/

def readEntry (f : Format A) (bs : Bytes) : Option ((Bytes × A) × Bytes) :=
  (readString bs).bind fun key =>
    match key.2 with
    | c :: rest => if c = colon then (f.read rest).map fun r => ((key.1, r.1), r.2) else none
    | [] => none

def entry (f : Format A) : Format (Bytes × A) where
  write e := writeString e.1 ++ colon :: f.write e.2
  read := readEntry f
  Writable e := Utf8 e.1 ∧ f.Writable e.2
  read_write := by
    intro ⟨key, a⟩ ⟨_, ha⟩ rest hrest
    have hkey := readString_writeString key (colon :: (f.write a ++ rest))
    simp only [readEntry, List.append_assoc, List.cons_append, hkey, Option.bind_some, if_true,
      f.read_write ha hrest, Option.map_some]
  opens := fun _ => ⟨quote, _, rfl, by decide, by decide⟩

/- The keys ascend, so that there is one of each. -/
def entries (f : Format A) : Format (List (Bytes × A)) where
  write := writeSequence f.entry openBrace closeBrace
  read := readSequence f.entry openBrace closeBrace
  Writable es := (∀ e ∈ es, f.entry.Writable e) ∧ es.Pairwise fun a b => a.1 < b.1
  read_write := fun h rest _ => readSequence_writeSequence f.entry openBrace (Or.inr rfl) h.1 rest
  opens := fun _ => ⟨openBrace, _, rfl, by decide, by decide⟩

/- Nothing can be written. -/
def never : Format A where
  write _ := []
  read _ := none
  Writable _ := False
  read_write := fun h => absurd h not_false
  opens := fun h => absurd h not_false

example : string.write [34, 10, 92, 65] =
    [quote, backslash, quote, backslash, 117, 48, 48, 48, 97, backslash, backslash, 65, quote] := by
  decide

end Format
end JsonText
