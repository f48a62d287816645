import Iotic.Lib.ByteString

/-!
# Composed formats of JSON text

A format is a writer of compact text with a reader that undoes it. A number does not say
where it ends: what follows it must not go on with a digit. Texts are UTF-8 bytes, and
those of keys need no escapes.
-/

namespace JsonText
open ByteString

def comma : UInt8 := 44
def minus : UInt8 := 45
def colon : UInt8 := 58
def quote : UInt8 := 34
def backslash : UInt8 := 92
def openBracket : UInt8 := 91
def closeBracket : UInt8 := 93
def openBrace : UInt8 := 123
def closeBrace : UInt8 := 125

def IsDigit (b : UInt8) : Prop := 48 ≤ b ∧ b ≤ 57

instance (b : UInt8) : Decidable (IsDigit b) := inferInstanceAs (Decidable (_ ∧ _))

/- What may stand behind a number. -/
def Closed (rest : Bytes) : Prop := ∀ b ∈ rest.head?, ¬ IsDigit b

theorem closed_cons {b : UInt8} (h : ¬ IsDigit b) (rest : Bytes) : Closed (b :: rest) := by
  intro c hc
  obtain rfl := Option.some.inj hc
  exact h

structure Format (A : Type) where
  write : A → Bytes
  read : Bytes → Option (A × Bytes)
  Writable : A → Prop
  read_write : ∀ {a}, Writable a → ∀ {rest}, Closed rest → read (write a ++ rest) = some (a, rest)
  opens : ∀ {a}, Writable a → ∃ b bs, write a = b :: bs ∧ b ≠ closeBracket ∧ b ≠ closeBrace

namespace Format
variable {A B : Type}

/- A whole text. -/
def parse (f : Format A) (text : Bytes) : Option A :=
  match f.read text with
  | some (a, []) => some a
  | _ => none

theorem parse_write (f : Format A) {a : A} (h : f.Writable a) : f.parse (f.write a) = some a := by
  have hread := f.read_write h (show Closed [] by intro b hb; cases hb)
  rw [List.append_nil] at hread
  rw [parse, hread]

/-! ### Numbers -/

def writeNat (n : ℕ) : Bytes := (Nat.toDigits 10 n).map fun c => UInt8.ofNat c.toNat

def natValue (digits : Bytes) : ℕ := digits.foldl (fun acc b => 10 * acc + (b.toNat - 48)) 0

def readNat (bs : Bytes) : Option (ℕ × Bytes) :=
  let digits := bs.takeWhile fun b => IsDigit b
  if digits.isEmpty then none else some (natValue digits, bs.drop digits.length)

theorem toNat_digit {c : Char} (h : c.isDigit) : (UInt8.ofNat c.toNat).toNat = c.toNat ∧
    48 ≤ c.toNat ∧ c.toNat ≤ 57 := by
  have hbounds : 48 ≤ c.toNat ∧ c.toNat ≤ 57 := by
    simpa [Char.isDigit, UInt32.le_iff_toNat_le] using h
  refine ⟨?_, hbounds⟩
  rw [UInt8.toNat_ofNat']
  omega

theorem isDigit_writeNat (n : ℕ) : ∀ b ∈ writeNat n, IsDigit b := by
  intro b hb
  obtain ⟨c, hc, rfl⟩ := List.mem_map.mp hb
  obtain ⟨heq, hlo, hhi⟩ := toNat_digit (Nat.isDigit_of_mem_toDigits (by decide) (by decide) hc)
  rw [IsDigit, UInt8.le_iff_toNat_le, UInt8.le_iff_toNat_le, heq]
  exact ⟨hlo, hhi⟩

theorem natValue_writeNat (n : ℕ) : natValue (writeNat n) = n := by
  have hfold : ∀ (cs : List Char) (acc : ℕ), (∀ c ∈ cs, c.isDigit) →
      (cs.map fun c => UInt8.ofNat c.toNat).foldl (fun acc b => 10 * acc + (b.toNat - 48)) acc =
        Nat.ofDigitChars 10 cs acc := by
    intro cs
    induction cs with
    | nil => exact fun _ _ => rfl
    | cons c cs ih =>
      intro acc h
      rw [List.forall_mem_cons] at h
      rw [List.map_cons, List.foldl_cons, ih _ h.2, (toNat_digit h.1).1, Nat.ofDigitChars_cons]
      rfl
  have hdigits : ∀ c ∈ Nat.toDigits 10 n, c.isDigit := fun c hc =>
    Nat.isDigit_of_mem_toDigits (by decide) (by decide) hc
  rw [natValue, writeNat, hfold _ 0 hdigits, Nat.ofDigitChars_ten_toDigits]

theorem writeNat_ne_nil (n : ℕ) : writeNat n ≠ [] := by
  simp [writeNat]

theorem readNat_writeNat (n : ℕ) {rest : Bytes} (h : Closed rest) :
    readNat (writeNat n ++ rest) = some (n, rest) := by
  have hdigits : (writeNat n ++ rest).takeWhile (fun b => decide (IsDigit b)) = writeNat n := by
    rw [List.takeWhile_append_of_pos fun b hb => decide_eq_true (isDigit_writeNat n b hb)]
    cases rest with
    | nil => simp
    | cons b rest =>
      have hb : ¬ IsDigit b := h b rfl
      simp [hb]
  have hne : (writeNat n).isEmpty = false := by
    simp [writeNat_ne_nil]
  simp only [readNat, hdigits, hne, Bool.false_eq_true, if_false, natValue_writeNat,
    List.drop_left]

def writeInt (value : ℤ) : Bytes :=
  if 0 ≤ value then writeNat value.toNat else minus :: writeNat (-value).toNat

def readInt (bs : Bytes) : Option (ℤ × Bytes) :=
  match bs with
  | b :: rest =>
    if b = minus then (readNat rest).map fun r => (-(r.1 : ℤ), r.2)
    else (readNat bs).map fun r => ((r.1 : ℤ), r.2)
  | [] => none

theorem writeNat_cons (n : ℕ) : ∃ b bs, writeNat n = b :: bs ∧ IsDigit b := by
  obtain ⟨b, bs, hcons⟩ := List.exists_cons_of_ne_nil (writeNat_ne_nil n)
  refine ⟨b, bs, hcons, isDigit_writeNat n b ?_⟩
  rw [hcons]
  exact List.mem_cons_self

theorem writeInt_cons (value : ℤ) : ∃ b bs, writeInt value = b :: bs ∧ (b = minus ∨ IsDigit b) := by
  unfold writeInt
  split_ifs
  · obtain ⟨b, bs, hcons, hb⟩ := writeNat_cons value.toNat
    exact ⟨b, bs, hcons, Or.inr hb⟩
  · exact ⟨minus, _, rfl, Or.inl rfl⟩

theorem readInt_writeInt (value : ℤ) {rest : Bytes} (h : Closed rest) :
    readInt (writeInt value ++ rest) = some (value, rest) := by
  unfold writeInt
  split_ifs with hsign
  · obtain ⟨b, bs, hcons, hb⟩ := writeNat_cons value.toNat
    have hread := readNat_writeNat value.toNat h
    rw [hcons, List.cons_append] at hread ⊢
    have hne : b ≠ minus := by
      rintro rfl
      exact absurd hb (by decide)
    rw [readInt, if_neg hne, hread, Option.map_some, Int.toNat_of_nonneg hsign]
  · rw [List.cons_append, readInt, if_pos rfl, readNat_writeNat _ h, Option.map_some,
      Int.toNat_of_nonneg (by omega), Int.neg_neg]

def int : Format ℤ where
  write := writeInt
  read := readInt
  Writable _ := True
  read_write := fun _ _ h => readInt_writeInt _ h
  opens := by
    intro value _
    obtain ⟨b, bs, hcons, hb⟩ := writeInt_cons value
    refine ⟨b, bs, hcons, ?_, ?_⟩
    · rintro rfl
      exact absurd hb (by decide)
    · rintro rfl
      exact absurd hb (by decide)

/-! ### Arrays and objects -/

def writeItems (f : Format A) : List A → Bytes
  | [] => []
  | [a] => f.write a
  | a :: a' :: as => f.write a ++ comma :: writeItems f (a' :: as)

/- Up to the closing bracket; `fuel` bounds the number of items. -/
def readItems (f : Format A) (closing : UInt8) : ℕ → Bytes → Option (List A × Bytes)
  | 0, _ => none
  | fuel + 1, bs =>
    (f.read bs).bind fun r =>
      match r.2 with
      | b :: rest =>
        if b = closing then some ([r.1], rest)
        else if b = comma then (readItems f closing fuel rest).map fun q => (r.1 :: q.1, q.2)
        else none
      | [] => none

/- A closing bracket or brace. -/
def Closing (closing : UInt8) : Prop := closing = closeBracket ∨ closing = closeBrace

theorem Closing.facts {closing : UInt8} (h : Closing closing) :
    ¬ IsDigit closing ∧ comma ≠ closing := by
  cases h with
  | inl h => rw [h]; decide
  | inr h => rw [h]; decide

theorem length_le_writeItems (f : Format A) {as : List A} (h : ∀ a ∈ as, f.Writable a) :
    as.length ≤ (writeItems f as).length := by
  induction as with
  | nil => simp
  | cons a as ih =>
    rw [List.forall_mem_cons] at h
    obtain ⟨b, bs, hcons, -⟩ := f.opens h.1
    cases as with
    | nil =>
      rw [writeItems, hcons]
      simp
    | cons a' as =>
      have hrest := ih h.2
      rw [writeItems, hcons, List.length_append, List.length_cons (a := comma)]
      simp only [List.length_cons] at hrest ⊢
      omega

theorem readItems_writeItems (f : Format A) {closing : UInt8} (hclosing : Closing closing)
    {as : List A} (hne : as ≠ []) (h : ∀ a ∈ as, f.Writable a) {fuel : ℕ}
    (hfuel : as.length ≤ fuel) (rest : Bytes) :
    readItems f closing fuel (writeItems f as ++ closing :: rest) = some (as, rest) := by
  obtain ⟨hdigit, hcomma⟩ := hclosing.facts
  induction as generalizing fuel with
  | nil => exact absurd rfl hne
  | cons a as ih =>
    rw [List.forall_mem_cons] at h
    obtain ⟨fuel, rfl⟩ := Nat.exists_eq_add_one_of_ne_zero (show fuel ≠ 0 by
      rw [List.length_cons] at hfuel
      omega)
    cases as with
    | nil =>
      have hread := f.read_write h.1 (closed_cons hdigit rest)
      simp only [readItems, writeItems, hread, Option.bind_some, if_pos]
    | cons a' as =>
      have hread := f.read_write h.1
        (closed_cons (by decide : ¬ IsDigit comma) (writeItems f (a' :: as) ++ closing :: rest))
      have hrest := ih (by simp) h.2 (Nat.le_of_succ_le_succ hfuel)
      rw [writeItems, List.append_assoc, List.cons_append, readItems, hread, Option.bind_some]
      simp only [if_neg hcomma, if_pos, hrest, Option.map_some]

/- The items between brackets, separated by commas. -/
def writeSequence (f : Format A) (opening closing : UInt8) (as : List A) : Bytes :=
  opening :: (writeItems f as ++ [closing])

def readSequence (f : Format A) (opening closing : UInt8) (bs : Bytes) : Option (List A × Bytes) :=
  match bs with
  | o :: c :: rest =>
    if o ≠ opening then none
    else if c = closing then some ([], rest)
    else readItems f closing (c :: rest).length (c :: rest)
  | _ => none

theorem readSequence_writeSequence (f : Format A) (opening : UInt8) {closing : UInt8}
    (hclosing : Closing closing) {as : List A} (h : ∀ a ∈ as, f.Writable a) (rest : Bytes) :
    readSequence f opening closing (writeSequence f opening closing as ++ rest) = some (as, rest) := by
  rw [writeSequence, List.cons_append, List.append_assoc, List.singleton_append]
  cases as with
  | nil => simp [readSequence, writeItems]
  | cons a as =>
    have hmore : (a :: as).length ≤ (writeItems f (a :: as) ++ closing :: rest).length := by
      have hle := length_le_writeItems f h
      rw [List.length_append]
      omega
    have hread := readItems_writeItems f hclosing (by simp) h hmore rest
    have hstart : ∃ b bs, writeItems f (a :: as) = b :: bs ∧ b ≠ closing := by
      obtain ⟨b, bs, hcons, hbracket, hbrace⟩ := f.opens (List.forall_mem_cons.mp h).1
      have hb : b ≠ closing := by
        cases hclosing with
        | inl hc => rw [hc]; exact hbracket
        | inr hc => rw [hc]; exact hbrace
      cases as with
      | nil => exact ⟨b, bs, hcons, hb⟩
      | cons a' as => exact ⟨b, _, by rw [writeItems, hcons, List.cons_append], hb⟩
    obtain ⟨b, bs, hcons, hb⟩ := hstart
    rw [hcons, List.cons_append] at hread ⊢
    rw [readSequence, if_neg (by simp), if_neg hb, hread]

def array (f : Format A) : Format (List A) where
  write := writeSequence f openBracket closeBracket
  read := readSequence f openBracket closeBracket
  Writable as := ∀ a ∈ as, f.Writable a
  read_write := fun h rest _ => readSequence_writeSequence f openBracket (Or.inl rfl) h rest
  opens := fun _ => ⟨openBracket, _, rfl, by decide, by decide⟩

/-- A key that is written as it is. -/
def Plain (key : Bytes) : Prop := ∀ b ∈ key, 32 ≤ b ∧ b ≠ quote ∧ b ≠ backslash

instance (key : Bytes) : Decidable (Plain key) := List.decidableBAll _ key

def readMember (f : Format A) (bs : Bytes) : Option ((Bytes × A) × Bytes) :=
  match bs with
  | q :: bs =>
    let key := bs.takeWhile fun b => b ≠ quote
    match bs.drop key.length with
    | q' :: c :: rest =>
      if q = quote ∧ q' = quote ∧ c = colon then (f.read rest).map fun r => ((key, r.1), r.2)
      else none
    | _ => none
  | [] => none

def member (f : Format A) : Format (Bytes × A) where
  write e := quote :: (e.1 ++ quote :: colon :: f.write e.2)
  read := readMember f
  Writable e := Plain e.1 ∧ f.Writable e.2
  read_write := by
    intro ⟨key, a⟩ ⟨hkey, ha⟩ rest hrest
    have htake : (key ++ quote :: colon :: (f.write a ++ rest)).takeWhile
        (fun b => decide (b ≠ quote)) = key := by
      rw [List.takeWhile_append_of_pos fun b hb => decide_eq_true (hkey b hb).2.1]
      simp
    simp only [List.cons_append, List.append_assoc, readMember, htake, List.drop_left, and_self,
      if_true, f.read_write ha hrest, Option.map_some]
  opens := fun _ => ⟨quote, _, rfl, by decide, by decide⟩

/- The members in the order they are written. -/
def object (f : Format A) : Format (List (Bytes × A)) where
  write := writeSequence f.member openBrace closeBrace
  read := readSequence f.member openBrace closeBrace
  Writable es := ∀ e ∈ es, f.member.Writable e
  read_write := fun h rest _ => readSequence_writeSequence f.member openBrace (Or.inr rfl) h rest
  opens := fun _ => ⟨openBrace, _, rfl, by decide, by decide⟩

/-! ### Either of two -/

def writeNumberOr (f : Format A) : ℤ ⊕ List A → Bytes
  | .inl value => int.write value
  | .inr as => f.array.write as

def readNumberOr (f : Format A) (bs : Bytes) : Option ((ℤ ⊕ List A) × Bytes) :=
  if bs.head? = some openBracket then (f.array.read bs).map fun r => (.inr r.1, r.2)
  else (int.read bs).map fun r => (.inl r.1, r.2)

/- A number, or an array. -/
def numberOr (f : Format A) : Format (ℤ ⊕ List A) where
  write := writeNumberOr f
  read := readNumberOr f
  Writable
    | .inl _ => True
    | .inr as => f.array.Writable as
  read_write := by
    intro a ha rest hrest
    cases a with
    | inl value =>
      have hhead : (int.write value ++ rest).head? ≠ some openBracket := by
        obtain ⟨b, bs, hcons, hb⟩ := writeInt_cons value
        have hwrite : int.write value = b :: bs := hcons
        rw [hwrite, List.cons_append, List.head?_cons]
        rintro h
        obtain rfl := Option.some.inj h
        exact absurd hb (by decide)
      rw [writeNumberOr, readNumberOr, if_neg hhead, int.read_write trivial hrest, Option.map_some]
    | inr as =>
      have hhead : (f.array.write as ++ rest).head? = some openBracket := rfl
      rw [writeNumberOr, readNumberOr, if_pos hhead, f.array.read_write ha hrest, Option.map_some]
  opens := by
    intro a ha
    cases a with
    | inl value => exact int.opens trivial
    | inr as => exact f.array.opens ha

example : int.numberOr.object.write [([112], .inr [1, -20])] =
    [openBrace, quote, 112, quote, colon, openBracket, 49, comma, minus, 50, 48, closeBracket,
      closeBrace] := by decide

end Format
end JsonText
