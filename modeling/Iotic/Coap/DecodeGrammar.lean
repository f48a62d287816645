import Iotic.Coap.OptionGrammar

/-!
# What the decoder makes of any datagram (CoapMessage::decode)

The decoder reads the grammar of the options with lengths and numbers modulo 2^16. Its
cursor stays within the datagram on every path.
-/

namespace Iotic.Coap.CoapMessage
open ByteString OptionGrammar

/-! ### One option -/

theorem nibble_high (b : UInt8) : ((b >>> 4) &&& 0x0F).toNat = b.toNat / 16 := by
  have hb : b.toNat < 256 := b.toNat_lt
  have hshift : (b >>> 4).toNat = b.toNat / 16 := by
    rw [UInt8.toNat_shiftRight]
    exact Nat.shiftRight_eq_div_pow _ 4
  have hand : ((b >>> 4) &&& 0x0F).toNat = (b >>> 4).toNat % 16 := by
    rw [UInt8.toNat_and]
    exact Nat.and_two_pow_sub_one_eq_mod _ 4
  rw [hand, hshift]
  omega

theorem nibble_low (b : UInt8) : (b &&& 0x0F).toNat = b.toNat % 16 := by
  rw [UInt8.toNat_and]
  exact Nat.and_two_pow_sub_one_eq_mod _ 4

/- A length in 16 bits. -/
def wrap (length : ℕ) : ℕ := length % 65536

theorem wrap_of_le {length : ℕ} (h : length ≤ 65535) : wrap length = length :=
  Nat.mod_eq_of_lt (by omega)

theorem toNat_ofNat_length (length : ℕ) : (UInt16.ofNat length).toNat = wrap length :=
  UInt16.toNat_ofNat'

/- Two bytes and 269, summed up in 16 bits. -/
theorem join_extended (hi lo : UInt8) :
    (269 : UInt16) + (hi.toUInt16 <<< 8 ||| lo.toUInt16) =
      UInt16.ofNat (269 + (hi.toNat * 256 + lo.toNat)) := by
  have hhi : hi.toNat < 256 := hi.toNat_lt
  have hlo : lo.toNat < 256 := lo.toNat_lt
  have hshift : (hi.toUInt16 <<< 8).toNat = hi.toNat <<< 8 := by
    have h := UInt16.toNat_shiftLeft hi.toUInt16 8
    rw [UInt8.toNat_toUInt16] at h
    rw [h]
    apply Nat.mod_eq_of_lt
    show hi.toNat <<< 8 < 65536
    rw [Nat.shiftLeft_eq]
    omega
  apply UInt16.toNat_inj.mp
  rw [UInt16.toNat_add, UInt16.toNat_or, hshift, UInt8.toNat_toUInt16, shift_or,
    UInt16.toNat_ofNat']
  rfl

section Extended
variable {data bs : Bytes} {c : Cursor} {nibble : UInt8}

theorem decodeExtended_none (h : c.At data bs) (hx : extended nibble.toNat bs = none) :
    decodeExtended data c nibble = .error .nullopt := by
  have hr := h.remaining_eq
  have h13 : nibble = 13 ↔ nibble.toNat = 13 := UInt8.toNat_inj.symm
  have h14 : nibble = 14 ↔ nibble.toNat = 14 := UInt8.toNat_inj.symm
  unfold extended at hx
  split_ifs at hx with hsmall hthirteen hfourteen
  · cases bs with
    | nil =>
      have hshort : c.remaining < 1 := by simp [hr]
      rw [decodeExtended, if_neg (show ¬ nibble < 13 from hsmall), if_pos (h13.mpr hthirteen),
        if_pos hshort]
    | cons b bs => cases hx
  · have hshort : c.remaining < 2 := by
      cases bs with
      | nil => simp [hr]
      | cons b bs =>
        cases bs with
        | nil => simp [hr]
        | cons b' bs => cases hx
    rw [decodeExtended, if_neg (show ¬ nibble < 13 from hsmall), if_neg (mt h13.mp hthirteen),
      if_pos (h14.mpr hfourteen), if_pos hshort]
  · rw [decodeExtended, if_neg (show ¬ nibble < 13 from hsmall), if_neg (mt h13.mp hthirteen),
      if_neg (mt h14.mp hfourteen)]

theorem decodeExtended_some {rest : Bytes} {x : ℕ} (h : c.At data bs)
    (hx : extended nibble.toNat bs = some (x, rest)) :
    ∃ c' : Cursor, c'.At data rest ∧ decodeExtended data c nibble = .ok (UInt16.ofNat x, c') := by
  unfold extended at hx
  split_ifs at hx with hsmall hthirteen hfourteen
  · obtain ⟨rfl, rfl⟩ := Prod.mk.inj (Option.some.inj hx)
    refine ⟨c, h, ?_⟩
    rw [decodeExtended_small hsmall]
    congr 2
    apply UInt16.toNat_inj.mp
    rw [UInt8.toNat_toUInt16, UInt16.toNat_ofNat']
    omega
  · obtain rfl : nibble = 13 := UInt8.toNat_inj.mp hthirteen
    cases bs with
    | nil => cases hx
    | cons b bs =>
      obtain ⟨rfl, rfl⟩ := Prod.mk.inj (Option.some.inj hx)
      refine ⟨c.advance 1, h.next, ?_⟩
      rw [decodeExtended_thirteen h]
      rfl
  · obtain rfl : nibble = 14 := UInt8.toNat_inj.mp hfourteen
    match bs, hx, h with
    | hi :: lo :: bs, hx, h =>
      obtain ⟨rfl, rfl⟩ := Prod.mk.inj (Option.some.inj hx)
      exact ⟨c.advance 2, h.next.next, by rw [decodeExtended_fourteen h, join_extended]⟩

end Extended

section Option
variable {data bs : Bytes} {s : OptionState} {optHdr : UInt8}

theorem decodeOption_none (h : s.cursor.At data (optHdr :: bs))
    (hf : field wrap optHdr bs = none) : decodeOption data s = .error .nullopt := by
  have hhigh := nibble_high optHdr
  have hlow := nibble_low optHdr
  unfold field at hf
  unfold decodeOption
  simp only [h.byteAt, ok_bind]
  cases hdelta : extended (optHdr.toNat / 16) bs with
  | none =>
    rw [decodeExtended_none h.next (by rw [hhigh, hdelta])]
    rfl
  | some r =>
    obtain ⟨delta, bs₁⟩ := r
    obtain ⟨c₁, hc₁, hdec₁⟩ := decodeExtended_some h.next (by rw [hhigh, hdelta])
    simp only [hdelta, Option.bind_eq_bind, Option.bind_some] at hf
    simp only [hdec₁, ok_bind]
    cases hlength : extended (optHdr.toNat % 16) bs₁ with
    | none =>
      rw [decodeExtended_none hc₁ (by rw [hlow, hlength])]
      rfl
    | some r =>
      obtain ⟨length, bs₂⟩ := r
      obtain ⟨c₂, hc₂, hdec₂⟩ := decodeExtended_some hc₁ (by rw [hlow, hlength])
      simp only [hlength, Option.bind_some] at hf
      split_ifs at hf with hshort
      simp only [hdec₂, ok_bind, toNat_ofNat_length, hc₂.remaining_eq, if_pos hshort]

theorem decodeOption_some {rest : Bytes} {f : Field} (h : s.cursor.At data (optHdr :: bs))
    (hf : field wrap optHdr bs = some (f, rest)) :
    ∃ c : Cursor, c.At data rest ∧ decodeOption data s =
      .ok ⟨c, s.currentOptionNumber + UInt16.ofNat f.delta,
        s.optionsMap.emplace ⟨s.currentOptionNumber + UInt16.ofNat f.delta⟩ f.value⟩ := by
  obtain ⟨bs₁, bs₂, hdelta, hlength, hshort, hvalue, rfl⟩ := field_eq_some.mp hf
  obtain ⟨c₁, hc₁, hdec₁⟩ := decodeExtended_some h.next (by rw [nibble_high, hdelta])
  obtain ⟨c₂, hc₂, hdec₂⟩ := decodeExtended_some hc₁ (by rw [nibble_low, hlength])
  have hvalueLength : f.value.length = wrap f.length := field_value hf
  have hc₂' : c₂.At data (f.value ++ bs₂.drop (wrap f.length)) := by
    rw [hvalue, List.take_append_drop]
    exact hc₂
  have hbytes := hc₂'.bytesAt
  have hadvance := hc₂'.advance
  rw [hvalueLength] at hbytes hadvance
  refine ⟨c₂.advance (wrap f.length), hadvance, ?_⟩
  simp only [decodeOption, h.byteAt, ok_bind, hdec₁, hdec₂, toNat_ofNat_length, hc₂.remaining_eq,
    if_neg hshort, hbytes]

end Option

/-! ### The loop -/

/- The options as the decoder numbers them. -/
def keyed (number : ℕ) (fs : List Field) : List CoapOption :=
  (numbered number fs).map fun o => ⟨⟨UInt16.ofNat o.1⟩, o.2⟩

theorem decodeOptions_cut {data bs : Bytes} {fuel number : ℕ} {s : OptionState}
    (h : s.cursor.At data bs) (hfuel : bs.length ≤ fuel)
    (hnumber : s.currentOptionNumber = UInt16.ofNat number) :
    (∃ fs payload c currentOptionNumber, Cut wrap bs fs payload ∧ c.At data payload ∧
      decodeOptions data fuel s =
        .ok ⟨c, currentOptionNumber, emplaceOptions s.optionsMap (keyed number fs)⟩) ∨
    ((∀ fs payload, ¬ Cut wrap bs fs payload) ∧ decodeOptions data fuel s = .error .nullopt) := by
  induction fuel generalizing bs s number with
  | zero =>
    obtain rfl : bs = [] := List.eq_nil_of_length_eq_zero (Nat.le_zero.mp hfuel)
    exact Or.inl ⟨[], [], s.cursor, s.currentOptionNumber, .nil, h,
      decodeOptions_done h.remaining_eq⟩
  | succ fuel ih =>
    cases bs with
    | nil =>
      exact Or.inl ⟨[], [], s.cursor, s.currentOptionNumber, .nil, h,
        decodeOptions_done h.remaining_eq⟩
    | cons optHdr bs =>
      rw [decodeOptions_step h]
      by_cases hmarker : optHdr = 0xFF
      · rw [if_pos hmarker]
        rw [hmarker] at h ⊢
        exact Or.inl ⟨[], bs, s.cursor.advance 1, s.currentOptionNumber, .marker bs, h.next, rfl⟩
      · rw [if_neg hmarker]
        cases hf : field wrap optHdr bs with
        | none =>
          refine Or.inr ⟨?_, by rw [decodeOption_none h hf]; rfl⟩
          intro fs payload hcut
          obtain ⟨f, rest, fs', hf', -, -⟩ := hcut.of_option hmarker
          rw [hf] at hf'
          cases hf'
        | some r =>
          obtain ⟨f, rest⟩ := r
          obtain ⟨c, hc, hone⟩ := decodeOption_some h hf
          have hrest := field_shorter hf
          rw [List.length_cons] at hfuel
          have hnext : s.currentOptionNumber + UInt16.ofNat f.delta =
              UInt16.ofNat (number + f.delta) := by
            rw [hnumber, UInt16.ofNat_add]
          rw [hnext] at hone
          rw [hone, ok_bind]
          cases ih (s := ⟨c, _, _⟩) hc (by omega) rfl with
          | inl hok =>
            obtain ⟨fs, payload, c', number', hcut, hc', heq⟩ := hok
            exact Or.inl ⟨f :: fs, payload, c', number', .option hmarker hf hcut, hc', heq⟩
          | inr herror =>
            obtain ⟨hnone, heq⟩ := herror
            refine Or.inr ⟨?_, heq⟩
            intro fs payload hcut
            obtain ⟨f', rest', fs', hf', -, hcut'⟩ := hcut.of_option hmarker
            rw [hf] at hf'
            obtain ⟨rfl, rfl⟩ := Prod.mk.inj (Option.some.inj hf')
            exact hnone fs' payload hcut'

/-! ### The datagram -/

/- Where the loop over the options begins. -/
def optionsStart (data : Bytes) (tokenLength : ℕ) : OptionState :=
  ⟨(Cursor.advance ⟨0, data.length⟩ 4).advance tokenLength, 0, Multimap.empty⟩

theorem optionsStart_at {data token rest : Bytes} {hdr code hi lo : UInt8}
    (hdata : data = hdr :: code :: hi :: lo :: (token ++ rest)) :
    (optionsStart data token.length).cursor.At data rest := by
  have h0 : Cursor.At data ⟨0, data.length⟩ (hdr :: code :: hi :: lo :: (token ++ rest)) :=
    ⟨hdata, Nat.zero_add _⟩
  exact Cursor.At.advance (c := Cursor.advance ⟨0, data.length⟩ 4) h0.next.next.next.next

/-- The decoder returns what the bytes behind the token can be cut into, or nothing where
they cannot be cut. -/
theorem decode_cut {data rest : Bytes} (h : Framed data rest) (senderAddress : String)
    (senderPort : UInt16) :
    (∃ fs m, Cut wrap rest fs m.payload ∧ decode data senderAddress senderPort = .ok m ∧
      m.optionsMap = emplaceOptions Multimap.empty (keyed 0 fs)) ∨
    ((∀ fs payload, ¬ Cut wrap rest fs payload) ∧
      decode data senderAddress senderPort = .error .nullopt) := by
  obtain ⟨hdr, code, hi, lo, token, hdata, hlength, htoken⟩ := h
  have hstart := optionsStart_at hdata
  have hfuel : rest.length ≤ data.length := by
    rw [hdata]
    simp only [List.length_cons, List.length_append]
    omega
  cases decodeOptions_cut hstart hfuel rfl with
  | inl hok =>
    obtain ⟨fs, payload, c, number, hcut, hc, heq⟩ := hok
    exact Or.inl ⟨fs, _, hcut,
      decode_ok senderAddress senderPort hdata hlength htoken heq hc, rfl⟩
  | inr herror =>
    obtain ⟨hnone, heq⟩ := herror
    have hstop : decodeOptions data data.length
        ⟨(Cursor.advance ⟨0, data.length⟩ 4).advance token.length, 0, Multimap.empty⟩ =
          .error .nullopt := heq
    refine Or.inr ⟨hnone, ?_⟩
    rw [decode_framed senderAddress senderPort hdata hlength htoken, hstop]
    rfl

theorem decode_unframed {data : Bytes} (h : ∀ rest, ¬ Framed data rest) (senderAddress : String)
    (senderPort : UInt16) : decode data senderAddress senderPort = .error .nullopt := by
  match data, h with
  | hdr :: code :: hi :: lo :: tail, h =>
    have hfour : ¬ (hdr :: code :: hi :: lo :: tail).length < 4 := by simp
    unfold decode
    rw [if_neg hfour]
    show (if (hdr &&& 0x0F).toNat > 12 then Except.error Stop.nullopt else _) = _
    split_ifs with htoken hshort
    · rfl
    · rfl
    · have hlong : (hdr &&& 0x0F).toNat ≤ tail.length := by
        simp only [Cursor.advance, List.length_cons] at hshort
        omega
      have htake : (tail.take (hdr &&& 0x0F).toNat).length = (hdr &&& 0x0F).toNat := by
        rw [List.length_take]
        omega
      refine absurd ⟨hdr, code, hi, lo, tail.take (hdr &&& 0x0F).toNat, ?_, htake.symm, by omega⟩
        (h (tail.drop (hdr &&& 0x0F).toNat))
      rw [List.take_append_drop]
  | [], _ => rfl
  | [_], _ => rfl
  | [_, _], _ => rfl
  | [_, _, _], _ => rfl

/-! ### Agreement with the grammar -/

/- The options of a message in the order of their numbers. -/
def optionsOf (m : CoapMessage) : List (ℕ × Bytes) :=
  m.optionsMap.entries.map fun e => (e.1.number.toNat, e.2)

/-- The decoder returns the options and the payload the grammar reads, and nothing where
the grammar reads nothing. -/
def Agrees (data : Bytes) : Prop :=
  ∀ senderAddress senderPort,
    (∃ m, decode data senderAddress senderPort = .ok m ∧ Reads data (optionsOf m) m.payload) ∨
    (decode data senderAddress senderPort = .error .nullopt ∧
      ∀ options payload, ¬ Reads data options payload)

/-- The datagram is made of options, each value as long as its length field modulo 2^16,
of which some length or number is over 65535; or of options as the grammar has them, of
which some length is. -/
def Wraps (data : Bytes) : Prop :=
  ∃ rest fs payload, Framed data rest ∧
    ((Cut wrap rest fs payload ∧
        ((∃ f ∈ fs, 65535 < f.length) ∨ ∃ o ∈ numbered 0 fs, 65535 < o.1)) ∨
      (Cut id rest fs payload ∧ (∃ f ∈ fs, 65535 < f.length) ∧ ∀ o ∈ numbered 0 fs, o.1 ≤ 65535))

theorem le_of_mem_numbered {number : ℕ} {fs : List Field} :
    ∀ o ∈ numbered number fs, number ≤ o.1 := by
  induction fs generalizing number with
  | nil => simp [numbered]
  | cons f fs ih =>
    rw [numbered, List.forall_mem_cons]
    refine ⟨Nat.le_add_right _ _, ?_⟩
    intro o ho
    have hle := ih o ho
    omega

theorem numbered_ordered (number : ℕ) (fs : List Field) :
    (numbered number fs).Pairwise fun a b => a.1 ≤ b.1 := by
  induction fs generalizing number with
  | nil => exact List.Pairwise.nil
  | cons f fs ih => exact List.pairwise_cons.mpr ⟨le_of_mem_numbered, ih _⟩

theorem values_numbered (number : ℕ) (fs : List Field) :
    (numbered number fs).map Prod.snd = fs.map Field.value := by
  induction fs generalizing number with
  | nil => rfl
  | cons f fs ih => rw [numbered, List.map_cons, List.map_cons, ih]

/- While no number is over 65535, the map holds the options as they are. -/
theorem entries_keyed {fs : List Field} (h : ∀ o ∈ numbered 0 fs, o.1 ≤ 65535) :
    (emplaceOptions Multimap.empty (keyed 0 fs)).entries.map
      (fun e => (e.1.number.toNat, e.2)) = numbered 0 fs := by
  have hnumber : ∀ o ∈ numbered 0 fs, (UInt16.ofNat o.1).toNat = o.1 := by
    intro o ho
    rw [toNat_ofNat_length, wrap_of_le (h o ho)]
  have hordered : ((numbered 0 fs).map fun o => ((⟨UInt16.ofNat o.1⟩ : OptionKey), o.2)).Pairwise
      fun a b => a.1 ≤ b.1 := by
    refine List.pairwise_map.mpr ((numbered_ordered 0 fs).imp_of_mem ?_)
    intro a b ha hb hab
    show (UInt16.ofNat a.1).toNat ≤ (UInt16.ofNat b.1).toNat
    rw [hnumber a ha, hnumber b hb]
    exact hab
  have hentries := Multimap.entries_foldl_emplace _ Multimap.empty hordered
  have hkeyed : ((keyed 0 fs).map fun opt => (opt.key, opt.value)) =
      (numbered 0 fs).map fun o => ((⟨UInt16.ofNat o.1⟩ : OptionKey), o.2) := by
    rw [keyed, List.map_map]
    rfl
  rw [emplaceOptions, hkeyed, hentries, Multimap.empty, List.nil_append, List.map_map]
  refine (List.map_congr_left fun o ho => ?_).trans (List.map_id _)
  exact Prod.ext (hnumber o ho) rfl

/- The decoder never finds a value of more than 65535 bytes. -/
theorem optionsOf_short {rest payload : Bytes} {fs : List Field} {m : CoapMessage}
    (hcut : Cut wrap rest fs payload)
    (hmap : m.optionsMap = emplaceOptions Multimap.empty (keyed 0 fs)) :
    ∀ o ∈ optionsOf m, o.2.length ≤ 65535 := by
  intro o ho
  obtain ⟨e, he, rfl⟩ := List.mem_map.mp ho
  rw [hmap, emplaceOptions, Multimap.mem_foldl_emplace] at he
  obtain ⟨opt, hopt, rfl⟩ := List.mem_map.mp (he.resolve_left (by simp [Multimap.empty]))
  obtain ⟨o', ho', rfl⟩ := List.mem_map.mp hopt
  have hvalue : o'.2 ∈ fs.map Field.value := by
    rw [← values_numbered 0 fs]
    exact List.mem_map_of_mem ho'
  obtain ⟨f, hf, hf'⟩ := List.mem_map.mp hvalue
  have hlength := hcut.value_length f hf
  have hmod : wrap f.length < 65536 := Nat.mod_lt _ (by decide)
  show o'.2.length ≤ 65535
  rw [← hf']
  omega

/- So in what it agrees on, no length is over 65535, and no number. -/
theorem lengths_of_reads {rest payload payload' : Bytes} {fs fs' : List Field} {m : CoapMessage}
    (hcut : Cut wrap rest fs payload)
    (hmap : m.optionsMap = emplaceOptions Multimap.empty (keyed 0 fs))
    (hcut' : Cut id rest fs' payload') (hread : optionsOf m = numbered 0 fs') :
    ∀ f ∈ fs', f.length ≤ 65535 := by
  intro f hf
  have hvalue : f.value ∈ (optionsOf m).map Prod.snd := by
    rw [hread, values_numbered]
    exact List.mem_map_of_mem hf
  obtain ⟨o, ho, hof⟩ := List.mem_map.mp hvalue
  have hshort := optionsOf_short hcut hmap o ho
  rw [hof, hcut'.value_length f hf] at hshort
  exact hshort

theorem cut_wrap_of_id {rest payload : Bytes} {fs : List Field} (h : Cut id rest fs payload)
    (hlengths : ∀ f ∈ fs, f.length ≤ 65535) : Cut wrap rest fs payload :=
  h.congr fun f hf => (wrap_of_le (hlengths f hf)).symm

theorem cut_id_of_wrap {rest payload : Bytes} {fs : List Field} (h : Cut wrap rest fs payload)
    (hlengths : ∀ f ∈ fs, f.length ≤ 65535) : Cut id rest fs payload :=
  h.congr fun f hf => wrap_of_le (hlengths f hf)

theorem narrow_of_agrees {data rest : Bytes} {fs : List Field} {m : CoapMessage} (h : Agrees data)
    (hframed : Framed data rest) (hcut : Cut wrap rest fs m.payload)
    (hdecode : decode data "" 0 = .ok m)
    (hmap : m.optionsMap = emplaceOptions Multimap.empty (keyed 0 fs)) :
    (∀ f ∈ fs, f.length ≤ 65535) ∧ (∀ o ∈ numbered 0 fs, o.1 ≤ 65535) := by
  cases h "" 0 with
  | inr hnone =>
    rw [hdecode] at hnone
    cases hnone.1
  | inl hread =>
    obtain ⟨m', hm', rest', fs', hframed', hcut', hoptions, hnumbers⟩ := hread
    obtain rfl : m = m' := Except.ok.inj (hdecode.symm.trans hm')
    obtain rfl := hframed.unique hframed'
    have hlengths := lengths_of_reads hcut hmap hcut' hoptions
    rw [hoptions] at hnumbers
    obtain ⟨rfl, -⟩ := (cut_wrap_of_id hcut' hlengths).unique hcut
    exact ⟨hlengths, hnumbers⟩

/- Where the datagram wraps, what the decoder returns is not what the grammar reads. -/
theorem not_agrees_of_wraps {data : Bytes} (h : Wraps data) : ¬ Agrees data := by
  intro hagrees
  obtain ⟨rest, fs, payload, hframed, hcase⟩ := h
  cases decode_cut hframed "" 0 with
  | inl hok =>
    obtain ⟨fs₀, m, hcut, hdecode, hmap⟩ := hok
    obtain ⟨hlengths, hnumbers⟩ := narrow_of_agrees hagrees hframed hcut hdecode hmap
    cases hcase with
    | inl hwrap =>
      obtain ⟨hcutw, hover⟩ := hwrap
      obtain ⟨rfl, -⟩ := hcutw.unique hcut
      cases hover with
      | inl hlength =>
        obtain ⟨f, hf, hlong⟩ := hlength
        exact absurd (hlengths f hf) (not_le.mpr hlong)
      | inr hnumber =>
        obtain ⟨o, ho, hlarge⟩ := hnumber
        exact absurd (hnumbers o ho) (not_le.mpr hlarge)
    | inr hlong =>
      obtain ⟨hcuti, ⟨f, hf, hlong⟩, -⟩ := hlong
      obtain ⟨rfl, -⟩ := hcuti.unique (cut_id_of_wrap hcut hlengths)
      exact absurd (hlengths f hf) (not_le.mpr hlong)
  | inr herror =>
    obtain ⟨hnone, hdecode⟩ := herror
    cases hcase with
    | inl hwrap => exact hnone _ _ hwrap.1
    | inr hlong =>
      obtain ⟨hcuti, -, hnumbers⟩ := hlong
      cases hagrees "" 0 with
      | inl hread =>
        obtain ⟨m', hm', -⟩ := hread
        rw [hdecode] at hm'
        cases hm'
      | inr hreject => exact hreject.2 _ payload ⟨rest, fs, hframed, hcuti, rfl, hnumbers⟩

theorem agrees_of_not_wraps {data : Bytes} (h : ¬ Wraps data) : Agrees data := by
  intro senderAddress senderPort
  by_cases hframed : ∃ rest, Framed data rest
  · obtain ⟨rest, hframed⟩ := hframed
    cases decode_cut hframed senderAddress senderPort with
    | inl hok =>
      obtain ⟨fs, m, hcut, hdecode, hmap⟩ := hok
      have hlengths : ∀ f ∈ fs, f.length ≤ 65535 := by
        intro f hf
        by_contra hlong
        exact h ⟨rest, fs, m.payload, hframed, Or.inl ⟨hcut, Or.inl ⟨f, hf, not_le.mp hlong⟩⟩⟩
      have hnumbers : ∀ o ∈ numbered 0 fs, o.1 ≤ 65535 := by
        intro o ho
        by_contra hlarge
        exact h ⟨rest, fs, m.payload, hframed, Or.inl ⟨hcut, Or.inr ⟨o, ho, not_le.mp hlarge⟩⟩⟩
      have hoptions : optionsOf m = numbered 0 fs := by
        rw [optionsOf, hmap, entries_keyed hnumbers]
      refine Or.inl ⟨m, hdecode, rest, fs, hframed, cut_id_of_wrap hcut hlengths, hoptions, ?_⟩
      rw [hoptions]
      exact hnumbers
    | inr herror =>
      obtain ⟨hnone, hdecode⟩ := herror
      refine Or.inr ⟨hdecode, ?_⟩
      intro options payload ⟨rest', fs, hframed', hcut, hoptions, hnumbers⟩
      obtain rfl := hframed.unique hframed'
      rw [hoptions] at hnumbers
      have hlengths : ∀ f ∈ fs, f.length ≤ 65535 := by
        intro f hf
        by_contra hlong
        exact h ⟨rest, fs, payload, hframed, Or.inr ⟨hcut, ⟨f, hf, not_le.mp hlong⟩, hnumbers⟩⟩
      exact hnone fs payload (cut_wrap_of_id hcut hlengths)
  · refine Or.inr ⟨decode_unframed (not_exists.mp hframed) senderAddress senderPort, ?_⟩
    intro options payload ⟨rest, fs, hframed', _⟩
    exact hframed ⟨rest, hframed'⟩

/-- The decoder agrees with the grammar exactly where no length and no number of the
options is over 65535. -/
theorem decode_agrees_iff (data : Bytes) : Agrees data ↔ ¬ Wraps data :=
  ⟨fun hagrees hwraps => not_agrees_of_wraps hwraps hagrees, agrees_of_not_wraps⟩

/- A GET with one option, of number 269 + 65535. -/
def largeDelta : Bytes := [0x50, 0x01, 0, 0, 0xE0, 0xFF, 0xFF]

theorem not_decode_agrees : ¬ Agrees largeDelta ∧
    ∃ m, decode largeDelta "" 0 = .ok m ∧ optionsOf m = [(268, [])] := by
  have hfield : field wrap 0xE0 [0xFF, 0xFF] = some (⟨65804, 0, []⟩, []) := by decide
  have hcut : Cut wrap [0xE0, 0xFF, 0xFF] [⟨65804, 0, []⟩] [] :=
    .option (by decide) hfield .nil
  have hframed : Framed largeDelta [0xE0, 0xFF, 0xFF] :=
    ⟨0x50, 0x01, 0, 0, [], rfl, rfl, by decide⟩
  refine ⟨?_, ?_⟩
  · apply not_agrees_of_wraps
    refine ⟨_, _, _, hframed, Or.inl ⟨hcut, Or.inr ⟨(65804, []), ?_, by decide⟩⟩⟩
    decide
  · cases decode_cut hframed "" 0 with
    | inr hnone => exact absurd hcut (hnone.1 _ _)
    | inl hok =>
      obtain ⟨fs, m, hcut', hdecode, hmap⟩ := hok
      obtain ⟨rfl, -⟩ := hcut.unique hcut'
      refine ⟨m, hdecode, ?_⟩
      rw [optionsOf, hmap]
      decide

/-! ### The cursor -/

/-- The states in which the condition of the loop over the options is evaluated. -/
inductive LoopHead (data : Bytes) : OptionState → Prop
  | start {hdr : UInt8} (hlength : 4 ≤ data.length) (hhdr : byteAt data 0 = .ok hdr)
      (htoken : (hdr &&& 0x0F).toNat ≤ 12) (hfits : (hdr &&& 0x0F).toNat ≤ data.length - 4) :
      LoopHead data (optionsStart data (hdr &&& 0x0F).toNat)
  | next {s t : OptionState} {b : UInt8} (h : LoopHead data s) (hmore : s.cursor.remaining ≠ 0)
      (hb : byteAt data s.cursor.p = .ok b) (hmarker : b ≠ 0xFF)
      (ht : decodeOption data s = .ok t) : LoopHead data t

theorem Cursor.At.of_counted {data : Bytes} {c : Cursor} (h : c.p + c.remaining = data.length) :
    c.At data (data.drop c.p) :=
  ⟨rfl, h⟩

/-- An iteration takes at least a byte, and keeps the sum of what is read and what is left. -/
theorem decodeOption_counted {data : Bytes} {s t : OptionState}
    (h : s.cursor.p + s.cursor.remaining = data.length) (hmore : s.cursor.remaining ≠ 0)
    (ht : decodeOption data s = .ok t) :
    t.cursor.p + t.cursor.remaining = data.length ∧
      t.cursor.remaining < s.cursor.remaining := by
  have hat := Cursor.At.of_counted h
  have hr := hat.remaining_eq
  cases hdrop : data.drop s.cursor.p with
  | nil =>
    rw [hdrop] at hr
    exact absurd hr hmore
  | cons optHdr bs =>
    rw [hdrop] at hat hr
    cases hf : field wrap optHdr bs with
    | none =>
      rw [decodeOption_none hat hf] at ht
      cases ht
    | some r =>
      obtain ⟨f, rest⟩ := r
      obtain ⟨c, hc, hone⟩ := decodeOption_some hat hf
      rw [hone] at ht
      obtain rfl := Except.ok.inj ht
      have hshorter := field_shorter hf
      refine ⟨hc.counted, ?_⟩
      rw [List.length_cons] at hr
      show c.remaining < s.cursor.remaining
      rw [hc.remaining_eq, hr]
      omega

theorem LoopHead.counted {data : Bytes} {s : OptionState} (h : LoopHead data s) :
    s.cursor.p + s.cursor.remaining = data.length := by
  induction h with
  | start hlength hhdr htoken hfits =>
    simp only [optionsStart, Cursor.advance]
    omega
  | next _ hmore _ _ ht ih => exact (decodeOption_counted ih hmore ht).1

/- The decoder stops where the source does, and nowhere else. -/
theorem decode_stops (data : Bytes) (senderAddress : String) (senderPort : UInt16) :
    (∃ m, decode data senderAddress senderPort = .ok m) ∨
      decode data senderAddress senderPort = .error .nullopt := by
  by_cases hframed : ∃ rest, Framed data rest
  · obtain ⟨rest, hframed⟩ := hframed
    cases decode_cut hframed senderAddress senderPort with
    | inl hok =>
      obtain ⟨fs, m, _, hdecode, _⟩ := hok
      exact Or.inl ⟨m, hdecode⟩
    | inr herror => exact Or.inr herror.2
  · exact Or.inr (decode_unframed (not_exists.mp hframed) senderAddress senderPort)

/-- Every datagram is decoded or refused: no byte is read past its end and the loop over
the options ends, since each iteration takes at least a byte; at each loop head what is
read and what remains add up to the datagram. -/
theorem decode_safe (data : Bytes) (senderAddress : String) (senderPort : UInt16) :
    decode data senderAddress senderPort ≠ .error .outOfBounds ∧
      decode data senderAddress senderPort ≠ .error .diverged ∧
      ∀ s, LoopHead data s → s.cursor.p + s.cursor.remaining = data.length ∧
        ∀ t, s.cursor.remaining ≠ 0 → decodeOption data s = .ok t →
          t.cursor.remaining < s.cursor.remaining := by
  refine ⟨?_, ?_, ?_⟩
  · cases decode_stops data senderAddress senderPort with
    | inl hok =>
      obtain ⟨m, hm⟩ := hok
      simp [hm]
    | inr hnone => simp [hnone]
  · cases decode_stops data senderAddress senderPort with
    | inl hok =>
      obtain ⟨m, hm⟩ := hok
      simp [hm]
    | inr hnone => simp [hnone]
  · intro s hs
    exact ⟨hs.counted, fun t hmore ht => (decodeOption_counted hs.counted hmore ht).2⟩

/- The one option of `largeDelta` takes the loop to the end of the datagram. -/
theorem decode_safe_largeDelta : ∃ s, LoopHead largeDelta s ∧
    s.cursor.p + s.cursor.remaining = 7 ∧ s.cursor.remaining = 0 := by
  have hstart : LoopHead largeDelta (optionsStart largeDelta 0) :=
    .start (by decide) (show byteAt largeDelta 0 = .ok 0x50 from rfl) (by decide) (by decide)
  have hbyte : byteAt largeDelta (optionsStart largeDelta 0).cursor.p = .ok 0xE0 := rfl
  have hstep : decodeOption largeDelta (optionsStart largeDelta 0) =
      .ok ⟨⟨7, 0⟩, 268, Multimap.empty.emplace ⟨268⟩ []⟩ := rfl
  have hnext : LoopHead largeDelta ⟨⟨7, 0⟩, 268, Multimap.empty.emplace ⟨268⟩ []⟩ :=
    hstart.next (by decide) hbyte (by decide) hstep
  exact ⟨_, hnext, ((decode_safe largeDelta "" 0).2.2 _ hnext).1, rfl⟩

end Iotic.Coap.CoapMessage
