import Iotic.Coap.CoapRoundTrip
import Iotic.Lib.Sequences

/-!
# The order of the options that are written (CoapMessage::encode)

The encoder sorts a copy of the options and then loops over the options themselves:
what is written is in ascending order exactly where they were so before. That is said of
the bytes, however they are cut into options.
-/

namespace Iotic.Coap.CoapMessage
open ByteString

/-! ### What the loop writes -/

/- One option of the output: the number before it, its own, the delta and the value. -/
structure WrittenOption where
  previous : UInt16
  number : UInt16
  delta : UInt16
  value : Bytes
  deriving DecidableEq, Repr

def writtenOptions : UInt16 → List CoapOption → List WrittenOption
  | _, [] => []
  | optionNumber, opt :: options =>
    ⟨optionNumber, opt.key.number, opt.key.number - optionNumber, opt.value⟩ ::
      writtenOptions opt.key.number options

def WrittenOption.bytes (w : WrittenOption) : Bytes :=
  let (base_delta, ext_delta) := encodeExtended w.delta
  let (base_len, ext_len) := encodeExtended (UInt16.ofNat w.value.length)
  (base_delta <<< 4 ||| base_len) :: (ext_delta ++ ext_len ++ w.value)

theorem encodeOptions_eq_written (optionNumber : UInt16) (options : List CoapOption) :
    encodeOptions optionNumber options =
      (writtenOptions optionNumber options).flatMap WrittenOption.bytes := by
  induction options generalizing optionNumber with
  | nil => rfl
  | cons opt options ih =>
    simp only [encodeOptions, writtenOptions, List.flatMap_cons, WrittenOption.bytes, ih,
      List.cons_append, List.append_assoc]

/-! ### Ascending order -/

/- The delta is the difference of the numbers, and that is not negative. -/
def WrittenOption.Ascends (w : WrittenOption) : Prop :=
  (w.delta.toNat : ℤ) = w.number.toNat - w.previous.toNat

instance (w : WrittenOption) : Decidable w.Ascends := inferInstanceAs (Decidable (_ = _))

/- Each option counts from the one before it. -/
def Chained : UInt16 → List WrittenOption → Prop
  | _, [] => True
  | optionNumber, w :: written => w.previous = optionNumber ∧ Chained w.number written

/-- The bytes before the options. -/
def encodeHeader (m : CoapMessage) : Bytes :=
  (m.version <<< 6 ||| m.type.toBits <<< 4 ||| (UInt8.ofNat m.token.length &&& 0x0F)) ::
    m.code :: (m.messageId >>> 8).toUInt8 :: (m.messageId &&& 0xFF).toUInt8 :: m.token

/- The bytes of the output can be cut into the options of the message, in some order, so
that each ascends. -/
def EncodesAscending (m : CoapMessage) : Prop :=
  ∃ written : List WrittenOption, Chained 0 written ∧ (∀ w ∈ written, w.Ascends) ∧
    (written.map fun w => (⟨⟨w.number⟩, w.value⟩ : CoapOption)).Perm m.options ∧
    m.encode = m.encodeHeader ++ written.flatMap WrittenOption.bytes ++ encodePayload m.payload

def Ascending (options : List CoapOption) : Prop :=
  options.Pairwise fun a b => a.key ≤ b.key

instance (options : List CoapOption) : Decidable (Ascending options) :=
  inferInstanceAs (Decidable (options.Pairwise _))

/- The same message but for the order of its options, and those with one key keep theirs. -/
structure Reordered (m m' : CoapMessage) : Prop where
  same : m' = { m with options := m'.options }
  perm : m.options.Perm m'.options
  stable : ∀ key, (m.options.filter fun opt => opt.key = key) =
    m'.options.filter fun opt => opt.key = key

theorem encode_eq_written {m : CoapMessage} (h : m.token.length ≤ 12) :
    m.encode = m.encodeHeader ++ (writtenOptions 0 m.options).flatMap WrittenOption.bytes ++
      encodePayload m.payload := by
  have hlen : (UInt8.ofNat m.token.length).toNat = m.token.length := by
    rw [UInt8.toNat_ofNat']
    exact Nat.mod_eq_of_lt (by omega)
  have hle : ¬ UInt8.ofNat m.token.length > 12 := by
    show ¬ 12 < (UInt8.ofNat m.token.length).toNat
    omega
  simp only [encode, if_neg hle, hlen, List.take_length, encodeHeader, encodeOptions_eq_written,
    List.cons_append, List.append_assoc]

/- A smaller number after a larger one wraps around. -/
theorem ascends_iff (number previous : UInt16) (value : Bytes) :
    (⟨previous, number, number - previous, value⟩ : WrittenOption).Ascends ↔
      previous.toNat ≤ number.toNat := by
  have hn : number.toNat < 65536 := number.toNat_lt
  have hp : previous.toNat < 65536 := previous.toNat_lt
  have hsub : (number - previous).toNat = (65536 - previous.toNat + number.toNat) % 65536 :=
    UInt16.toNat_sub number previous
  show ((number - previous).toNat : ℤ) = number.toNat - previous.toNat ↔ _
  rw [hsub]
  omega

theorem ascending_cons {opt : CoapOption} {options : List CoapOption} :
    Ascending (opt :: options) ↔
      (∀ o ∈ options, opt.key.number.toNat ≤ o.key.number.toNat) ∧ Ascending options :=
  List.pairwise_cons

theorem writtenOptions_ascend_iff (optionNumber : UInt16) (options : List CoapOption) :
    (∀ w ∈ writtenOptions optionNumber options, w.Ascends) ↔
      (∀ opt ∈ options, optionNumber.toNat ≤ opt.key.number.toNat) ∧ Ascending options := by
  induction options generalizing optionNumber with
  | nil => simp [writtenOptions, Ascending]
  | cons opt options ih =>
    rw [writtenOptions, List.forall_mem_cons, ascends_iff, ih, List.forall_mem_cons,
      ascending_cons]
    refine ⟨?_, ?_⟩
    · intro ⟨hfirst, hlater, hrest⟩
      exact ⟨⟨hfirst, fun o ho => le_trans hfirst (hlater o ho)⟩, hlater, hrest⟩
    · intro ⟨⟨hfirst, _⟩, hlater, hrest⟩
      exact ⟨hfirst, hlater, hrest⟩

/-! ### One way to cut the bytes -/

/- The decoder tells two numbers apart, and so what is behind them. -/
theorem encodeExtended_append_inj {x y : UInt16} {r s : Bytes}
    (hnibble : (encodeExtended x).1 = (encodeExtended y).1)
    (h : (encodeExtended x).2 ++ r = (encodeExtended y).2 ++ s) : x = y ∧ r = s := by
  let c : Cursor := ⟨0, ((encodeExtended x).2 ++ r).length⟩
  have hatx : c.At ((encodeExtended x).2 ++ r) ((encodeExtended x).2 ++ r) := ⟨rfl, Nat.zero_add _⟩
  have haty : c.At ((encodeExtended x).2 ++ r) ((encodeExtended y).2 ++ s) := ⟨h, Nat.zero_add _⟩
  have hx := decodeExtended_encodeExtended hatx
  have hy := decodeExtended_encodeExtended haty
  rw [hnibble, hy] at hx
  obtain ⟨rfl, -⟩ := Prod.mk.inj (Except.ok.inj hx)
  exact ⟨rfl, List.append_cancel_left h⟩

theorem WrittenOption.bytes_append (w : WrittenOption) (r : Bytes) : w.bytes ++ r =
    ((encodeExtended w.delta).1 <<< 4 ||| (encodeExtended (UInt16.ofNat w.value.length)).1) ::
      ((encodeExtended w.delta).2 ++ ((encodeExtended (UInt16.ofNat w.value.length)).2 ++
        (w.value ++ r))) := by
  simp only [bytes, List.cons_append, List.append_assoc]

/- So do the bytes of an option, whose value is as long as its length field can say. -/
theorem bytes_append_inj {v w : WrittenOption} {r s : Bytes} (hv : v.value.length < 65536)
    (hw : w.value.length < 65536) (h : v.bytes ++ r = w.bytes ++ s) :
    v.delta = w.delta ∧ v.value = w.value ∧ r = s := by
  rw [v.bytes_append, w.bytes_append] at h
  obtain ⟨hhdr, htail⟩ := List.cons.inj h
  obtain ⟨hvd, hvl, -⟩ :=
    nibbles (encodeExtended_nibble v.delta) (encodeExtended_nibble (UInt16.ofNat v.value.length))
  obtain ⟨hwd, hwl, -⟩ :=
    nibbles (encodeExtended_nibble w.delta) (encodeExtended_nibble (UInt16.ofNat w.value.length))
  rw [hhdr] at hvd hvl
  obtain ⟨hdelta, htail⟩ := encodeExtended_append_inj (hvd.symm.trans hwd) htail
  obtain ⟨hlength, htail⟩ := encodeExtended_append_inj (hvl.symm.trans hwl) htail
  have hlen : v.value.length = w.value.length := by
    have hn := congrArg UInt16.toNat hlength
    rwa [UInt16.toNat_ofNat', UInt16.toNat_ofNat', Nat.mod_eq_of_lt hv, Nat.mod_eq_of_lt hw] at hn
  obtain ⟨hvalue, hrest⟩ := List.append_inj htail hlen
  exact ⟨hdelta, hvalue, hrest⟩

theorem bytes_ne_nil (w : WrittenOption) (r : Bytes) : w.bytes ++ r ≠ [] := by
  rw [w.bytes_append]
  exact List.cons_ne_nil _ _

/- An option that ascends has the number its delta leads to. -/
theorem WrittenOption.Ascends.number_eq {w : WrittenOption} (h : w.Ascends) :
    w.number = w.previous + w.delta := by
  have hn := w.number.toNat_lt
  unfold WrittenOption.Ascends at h
  apply UInt16.toNat_inj.mp
  rw [UInt16.toNat_add]
  omega

/- Ascending options with the bytes of the loop are those of the loop. -/
theorem written_eq {optionNumber : UInt16} {written : List WrittenOption} {options : List CoapOption}
    (hchained : Chained optionNumber written) (hascends : ∀ w ∈ written, w.Ascends)
    (hshort : ∀ w ∈ written, w.value.length < 65536)
    (hvalues : ∀ opt ∈ options, opt.value.length < 65536)
    (h : written.flatMap WrittenOption.bytes = encodeOptions optionNumber options) :
    written = writtenOptions optionNumber options := by
  rw [encodeOptions_eq_written] at h
  induction written generalizing optionNumber options with
  | nil =>
    cases options with
    | nil => rfl
    | cons opt options => exact absurd h.symm (bytes_ne_nil _ _)
  | cons w written ih =>
    cases options with
    | nil => exact absurd h (bytes_ne_nil _ _)
    | cons opt options =>
      obtain ⟨hprevious, hrest⟩ := hchained
      rw [List.forall_mem_cons] at hascends hshort hvalues
      rw [writtenOptions, List.flatMap_cons, List.flatMap_cons] at h
      obtain ⟨hdelta, hvalue, htail⟩ := bytes_append_inj hshort.1 hvalues.1 h
      have hnumber : w.number = opt.key.number := by
        rw [hascends.1.number_eq, hprevious, hdelta, UInt16.add_comm]
        exact UInt16.sub_add_cancel _ _
      rw [writtenOptions, ih (hnumber ▸ hrest) hascends.2 hshort.2 hvalues.2 htail]
      obtain ⟨previous, number, delta, value⟩ := w
      obtain rfl : previous = optionNumber := hprevious
      obtain rfl : number = opt.key.number := hnumber
      obtain rfl : delta = opt.key.number - previous := hdelta
      obtain rfl : value = opt.value := hvalue
      rfl

theorem writtenOptions_chained (optionNumber : UInt16) (options : List CoapOption) :
    Chained optionNumber (writtenOptions optionNumber options) := by
  induction options generalizing optionNumber with
  | nil => trivial
  | cons opt options ih => exact ⟨rfl, ih opt.key.number⟩

theorem writtenOptions_options (optionNumber : UInt16) (options : List CoapOption) :
    ((writtenOptions optionNumber options).map fun w => (⟨⟨w.number⟩, w.value⟩ : CoapOption)) =
      options := by
  induction options generalizing optionNumber with
  | nil => rfl
  | cons opt options ih => rw [writtenOptions, List.map_cons, ih]

theorem encodesAscending_of_ascending {m : CoapMessage} (h : m.token.length ≤ 12)
    (hascending : Ascending m.options) : m.EncodesAscending := by
  refine ⟨writtenOptions 0 m.options, writtenOptions_chained 0 m.options, ?_, ?_,
    encode_eq_written h⟩
  · exact (writtenOptions_ascend_iff 0 m.options).mpr ⟨fun _ _ => Nat.zero_le _, hascending⟩
  · rw [writtenOptions_options]

theorem EncodesAscending.ascending {m : CoapMessage} (h : m.EncodesAscending)
    (htoken : m.token.length ≤ 12) (hvalues : ∀ opt ∈ m.options, opt.value.length < 65536) :
    Ascending m.options := by
  obtain ⟨written, hchained, hascends, hperm, hbytes⟩ := h
  have hshort : ∀ w ∈ written, w.value.length < 65536 := fun w hw =>
    hvalues _ (hperm.mem_iff.mp (List.mem_map_of_mem hw))
  rw [encode_eq_written htoken, ← encodeOptions_eq_written] at hbytes
  have hoptions := List.append_cancel_left (List.append_cancel_right hbytes)
  have hwritten := written_eq hchained hascends hshort hvalues hoptions.symm
  exact ((writtenOptions_ascend_iff 0 m.options).mp (hwritten ▸ hascends)).2

theorem Reordered.encode_eq {m m' : CoapMessage} (h : Reordered m m')
    (hm : Ascending m.options) (hm' : Ascending m'.options) : m.encode = m'.encode := by
  have hoptions : m.options = m'.options :=
    Sequences.eq_of_filter_eq CoapOption.key hm hm' h.stable
  rw [h.same, ← hoptions]

/-- Two messages that differ in the order of their options are both written in ascending
order, and to the same bytes, where the options of both are in that order; and not
otherwise, as far as the values are as short as a length field can say. -/
theorem encode_ascending_iff (m m' : CoapMessage) (htoken : m.token.length ≤ 12)
    (h : Reordered m m') :
    (Ascending m.options ∧ Ascending m'.options →
      m.EncodesAscending ∧ m'.EncodesAscending ∧ m.encode = m'.encode) ∧
    ((∀ opt ∈ m.options, opt.value.length < 65536) →
      m.EncodesAscending ∧ m'.EncodesAscending ∧ m.encode = m'.encode →
        Ascending m.options ∧ Ascending m'.options) := by
  have htoken' : m'.token.length ≤ 12 := by
    rw [h.same]
    exact htoken
  constructor
  · intro ⟨hm, hm'⟩
    exact ⟨encodesAscending_of_ascending htoken hm, encodesAscending_of_ascending htoken' hm',
      h.encode_eq hm hm'⟩
  · intro hvalues ⟨hm, hm', _⟩
    have hvalues' : ∀ opt ∈ m'.options, opt.value.length < 65536 := fun opt hopt =>
      hvalues opt (h.perm.mem_iff.mpr hopt)
    exact ⟨hm.ascending htoken hvalues, hm'.ascending htoken' hvalues'⟩

theorem encode_ascending_discovery :
    buildDiscoveryRequest.EncodesAscending ∧ Ascending buildDiscoveryRequest.options := by
  have hsame : Reordered buildDiscoveryRequest buildDiscoveryRequest :=
    ⟨rfl, List.Perm.refl _, fun _ => rfl⟩
  obtain ⟨henough, honly⟩ :=
    encode_ascending_iff buildDiscoveryRequest buildDiscoveryRequest (by decide) hsame
  have hall := henough ⟨by decide, by decide⟩
  exact ⟨hall.1, (honly (by decide) hall).1⟩

/- The option that stands last in `observedRequest` put first, where its number belongs. -/
def sortedRequest : CoapMessage :=
  { observedRequest with options := ⟨OptionKey.Observe, []⟩ :: buildDiscoveryRequest.options }

theorem sortedRequest_reordered : Reordered observedRequest sortedRequest where
  same := rfl
  perm := List.perm_append_singleton _ _
  stable := by
    intro key
    have hpath : ∀ o ∈ buildDiscoveryRequest.options, o.key = OptionKey.UriPath := by decide
    have hne : OptionKey.Observe ≠ OptionKey.UriPath := by decide
    show (buildDiscoveryRequest.options ++ [(⟨OptionKey.Observe, []⟩ : CoapOption)]).filter _ = _
    rw [List.filter_append, sortedRequest, List.filter_cons]
    by_cases hkey : OptionKey.Observe = key
    · have hnone : (buildDiscoveryRequest.options.filter fun opt => opt.key = key) = [] := by
        rw [List.filter_eq_nil_iff]
        intro o ho
        simp [hpath o ho, ← hkey, hne.symm]
      simp [hnone, hkey]
    · simp [hkey]

theorem not_encode_ascending : observedRequest.token.length ≤ 12 ∧
    Reordered observedRequest sortedRequest ∧ ¬ observedRequest.EncodesAscending ∧
      observedRequest.encode ≠ sortedRequest.encode := by
  refine ⟨by decide, sortedRequest_reordered, ?_, by decide⟩
  intro h
  exact absurd (h.ascending (by decide) (by decide)) (by decide)

end Iotic.Coap.CoapMessage
