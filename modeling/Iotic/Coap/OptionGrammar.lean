import Iotic.Coap.CoapRoundTrip

/-!
# The options of a datagram, over the natural numbers

The option grammar of RFC 7252: deltas are summed up and lengths are taken as they
stand. `len` says how long the value behind a length field is, so that the same grammar
also tells what the decoder makes of the bytes, which keeps a length in 16 bits.
-/

namespace Iotic.Coap
open ByteString CoapMessage

namespace OptionGrammar

/-! ### The grammar -/

/-- A nibble and the bytes that extend it, and what is behind them. -/
def extended (nibble : ℕ) (bs : Bytes) : Option (ℕ × Bytes) :=
  if nibble < 13 then some (nibble, bs)
  else if nibble = 13 then
    match bs with
    | b :: rest => some (13 + b.toNat, rest)
    | [] => none
  else if nibble = 14 then
    match bs with
    | hi :: lo :: rest => some (269 + (hi.toNat * 256 + lo.toNat), rest)
    | _ => none
  else none

structure Field where
  delta : ℕ
  length : ℕ
  value : Bytes
  deriving DecidableEq, Repr

/-- One option behind its first byte. -/
def field (len : ℕ → ℕ) (optHdr : UInt8) (bs : Bytes) : Option (Field × Bytes) := do
  let (delta, bs) ← extended (optHdr.toNat / 16) bs
  let (length, bs) ← extended (optHdr.toNat % 16) bs
  if bs.length < len length then none
  else some (⟨delta, length, bs.take (len length)⟩, bs.drop (len length))

/-- The options end with the datagram or with the payload marker. -/
inductive Cut (len : ℕ → ℕ) : Bytes → List Field → Bytes → Prop
  | nil : Cut len [] [] []
  | marker (payload : Bytes) : Cut len (0xFF :: payload) [] payload
  | option {optHdr : UInt8} {bs rest payload : Bytes} {f : Field} {fs : List Field} :
    optHdr ≠ 0xFF → field len optHdr bs = some (f, rest) → Cut len rest fs payload →
      Cut len (optHdr :: bs) (f :: fs) payload

/-- The numbers of the options, summed up from `number`, with their values. -/
def numbered (number : ℕ) : List Field → List (ℕ × Bytes)
  | [] => []
  | f :: fs => (number + f.delta, f.value) :: numbered (number + f.delta) fs

/- What stands before the options; a token has up to 12 bytes. -/
def Framed (data rest : Bytes) : Prop :=
  ∃ hdr code hi lo token, data = hdr :: code :: hi :: lo :: (token ++ rest) ∧
    (hdr &&& 0x0F).toNat = token.length ∧ token.length ≤ 12

/-- A datagram, the numbers and values of its options, and its payload. -/
def Reads (data : Bytes) (options : List (ℕ × Bytes)) (payload : Bytes) : Prop :=
  ∃ rest fs, Framed data rest ∧ Cut id rest fs payload ∧ options = numbered 0 fs ∧
    ∀ o ∈ options, o.1 ≤ 65535

/-! ### One reading of the bytes -/

theorem extended_suffix {nibble : ℕ} {bs rest : Bytes} {x : ℕ}
    (h : extended nibble bs = some (x, rest)) : rest.length ≤ bs.length := by
  unfold extended at h
  split_ifs at h
  · obtain ⟨-, rfl⟩ := Prod.mk.inj (Option.some.inj h)
    exact le_rfl
  · cases bs with
    | nil => cases h
    | cons b bs =>
      obtain ⟨-, rfl⟩ := Prod.mk.inj (Option.some.inj h)
      simp
  · match bs, h with
    | hi :: lo :: bs, h =>
      obtain ⟨-, rfl⟩ := Prod.mk.inj (Option.some.inj h)
      simp only [List.length_cons]
      omega

theorem field_eq_some {len : ℕ → ℕ} {optHdr : UInt8} {bs rest : Bytes} {f : Field} :
    field len optHdr bs = some (f, rest) ↔
      ∃ bs₁ bs₂, extended (optHdr.toNat / 16) bs = some (f.delta, bs₁) ∧
        extended (optHdr.toNat % 16) bs₁ = some (f.length, bs₂) ∧
        ¬ bs₂.length < len f.length ∧ f.value = bs₂.take (len f.length) ∧
        rest = bs₂.drop (len f.length) := by
  unfold field
  simp only [Option.bind_eq_bind, Option.bind_eq_some_iff, Prod.exists]
  refine ⟨?_, ?_⟩
  · intro ⟨delta, bs₁, hdelta, length, bs₂, hlength, h⟩
    split_ifs at h with hshort
    obtain ⟨rfl, rfl⟩ := Prod.mk.inj (Option.some.inj h)
    exact ⟨bs₁, bs₂, hdelta, hlength, hshort, rfl, rfl⟩
  · intro ⟨bs₁, bs₂, hdelta, hlength, hshort, hvalue, hrest⟩
    refine ⟨f.delta, bs₁, hdelta, f.length, bs₂, hlength, ?_⟩
    rw [if_neg hshort, ← hvalue, ← hrest]

/- A value is as long as its length field says. -/
theorem field_value {len : ℕ → ℕ} {optHdr : UInt8} {bs rest : Bytes} {f : Field}
    (h : field len optHdr bs = some (f, rest)) : f.value.length = len f.length := by
  obtain ⟨bs₁, bs₂, _, _, hshort, hvalue, _⟩ := field_eq_some.mp h
  rw [hvalue, List.length_take]
  omega

theorem field_shorter {len : ℕ → ℕ} {optHdr : UInt8} {bs rest : Bytes} {f : Field}
    (h : field len optHdr bs = some (f, rest)) : rest.length ≤ bs.length := by
  obtain ⟨bs₁, bs₂, hdelta, hlength, _, _, hrest⟩ := field_eq_some.mp h
  have h₁ := extended_suffix hdelta
  have h₂ := extended_suffix hlength
  rw [hrest, List.length_drop]
  omega

/- Of two readings only the length of a value matters. -/
theorem field_congr {len len' : ℕ → ℕ} {optHdr : UInt8} {bs rest : Bytes} {f : Field}
    (hlen : len f.length = len' f.length) (h : field len optHdr bs = some (f, rest)) :
    field len' optHdr bs = some (f, rest) := by
  obtain ⟨bs₁, bs₂, hdelta, hlength, hshort, hvalue, hrest⟩ := field_eq_some.mp h
  rw [hlen] at hshort hvalue hrest
  exact field_eq_some.mpr ⟨bs₁, bs₂, hdelta, hlength, hshort, hvalue, hrest⟩

namespace Cut
variable {len len' : ℕ → ℕ} {bs payload : Bytes} {fs : List Field}

theorem value_length (h : Cut len bs fs payload) : ∀ f ∈ fs, f.value.length = len f.length := by
  induction h with
  | nil => simp
  | marker payload => simp
  | option _ hf _ ih => exact List.forall_mem_cons.mpr ⟨field_value hf, ih⟩

theorem congr (h : Cut len bs fs payload) (hlen : ∀ f ∈ fs, len f.length = len' f.length) :
    Cut len' bs fs payload := by
  induction h with
  | nil => exact .nil
  | marker payload => exact .marker payload
  | option hne hf _ ih =>
    rw [List.forall_mem_cons] at hlen
    exact .option hne (field_congr hlen.1 hf) (ih hlen.2)

/- Any first byte but the payload marker begins an option. -/
theorem of_option {optHdr : UInt8} (hne : optHdr ≠ 0xFF) (h : Cut len (optHdr :: bs) fs payload) :
    ∃ f rest fs', field len optHdr bs = some (f, rest) ∧ fs = f :: fs' ∧ Cut len rest fs' payload := by
  cases h with
  | marker => exact absurd rfl hne
  | option _ hf hrest => exact ⟨_, _, _, hf, rfl, hrest⟩

theorem unique {payload' : Bytes} {fs' : List Field} (h : Cut len bs fs payload)
    (h' : Cut len bs fs' payload') : fs = fs' ∧ payload = payload' := by
  induction h generalizing fs' with
  | nil =>
    cases h' with
    | nil => exact ⟨rfl, rfl⟩
  | marker payload =>
    cases h' with
    | marker => exact ⟨rfl, rfl⟩
    | option hne _ _ => exact absurd rfl hne
  | option hne hf _ ih =>
    obtain ⟨f', rest', fs'', hf', rfl, hrest'⟩ := h'.of_option hne
    rw [hf] at hf'
    obtain ⟨rfl, rfl⟩ := Prod.mk.inj (Option.some.inj hf')
    obtain ⟨rfl, rfl⟩ := ih hrest'
    exact ⟨rfl, rfl⟩

end Cut

theorem Framed.unique {data rest rest' : Bytes} (h : Framed data rest) (h' : Framed data rest') :
    rest = rest' := by
  obtain ⟨hdr, code, hi, lo, token, hdata, hlength, _⟩ := h
  obtain ⟨hdr', code', hi', lo', token', hdata', hlength', _⟩ := h'
  rw [hdata] at hdata'
  simp only [List.cons.injEq] at hdata'
  obtain ⟨rfl, -, -, -, happend⟩ := hdata'
  exact (List.append_inj happend (hlength.symm.trans hlength')).2

end OptionGrammar
end Iotic.Coap
