import Iotic.Webapp.ArchiveArrays

/-!
# Archived data on the chart

The archive leaves out the buckets that repeat a value; the web app holds a value
until the next bucket it has, and shows 0 behind the last one.
-/

namespace Iotic.Webapp
open ByteString Cbor Sequences Iotic.Common Iotic.Database

/-! ### What a slot shows -/

/- `lastY` is held until the first of the remaining buckets; behind the last there
is 0. -/
def shownAt (lastY : ℤ) : List (ℤ × ℤ) → ℤ → ℤ
  | [], _ => 0
  | (t, v) :: rest, slot =>
    if slot < t then lastY else if slot = t then v else shownAt v rest slot

theorem shownAt_of_lt {lastY t v slot : ℤ} {rest : List (ℤ × ℤ)} (h : slot < t) :
    shownAt lastY ((t, v) :: rest) slot = lastY := by rw [shownAt, if_pos h]

theorem shownAt_self (lastY t v : ℤ) (rest : List (ℤ × ℤ)) :
    shownAt lastY ((t, v) :: rest) t = v := by rw [shownAt, if_neg (lt_irrefl t), if_pos rfl]

theorem shownAt_of_gt {lastY t v slot : ℤ} {rest : List (ℤ × ℤ)} (h : t < slot) :
    shownAt lastY ((t, v) :: rest) slot = shownAt v rest slot := by
  rw [shownAt, if_neg h.asymm, if_neg h.ne']

theorem shownAt_mem {t v : ℤ} (lastY : ℤ) (ps : List (ℤ × ℤ))
    (hs : ps.Pairwise fun a b => a.1 < b.1) (h : (t, v) ∈ ps) : shownAt lastY ps t = v := by
  induction ps generalizing lastY with
  | nil => cases h
  | cons p ps ih =>
    obtain ⟨hhd, htl⟩ := List.pairwise_cons.mp hs
    rcases List.mem_cons.mp h with rfl | h
    · exact shownAt_self lastY t v ps
    · rw [shownAt_of_gt (hhd _ h)]
      exact ih p.2 htl h

theorem shownAt_behind {slot : ℤ} (lastY : ℤ) (ps : List (ℤ × ℤ)) (h : ∀ p ∈ ps, p.1 < slot) :
    shownAt lastY ps slot = 0 := by
  induction ps generalizing lastY with
  | nil => rfl
  | cons p ps ih =>
    rw [shownAt_of_gt (h p List.mem_cons_self)]
    exact ih p.2 fun q hq => h q (List.mem_cons_of_mem _ hq)

section Slot
variable {timestamps values : List ℤ} {dayStart : ℤ} {n i srcIndex : ℕ} {lastY : ℤ}

/- One slot of the loop: behind all buckets, at a bucket, or before the next one. -/
theorem spotsFrom_behind (h : timestamps.length ≤ srcIndex) :
    spotsFrom timestamps values dayStart (n + 1) i srcIndex lastY =
      spotsFrom timestamps values dayStart n (i + 1) srcIndex 0 >>= fun rest =>
        .ok (⟨i, 0 * 10⟩ :: rest) := by
  have hnone : timestamps[srcIndex]? = none := List.getElem?_eq_none h
  simp only [spotsFrom, hnone, reduceCtorEq, if_false, ge_iff_le, if_pos h, ok_bind]

theorem spotsFrom_at {v : ℤ} (ht : timestamps[srcIndex]? = some (dayStart + i))
    (hv : values[srcIndex]? = some v) :
    spotsFrom timestamps values dayStart (n + 1) i srcIndex lastY =
      spotsFrom timestamps values dayStart n (i + 1) (srcIndex + 1) v >>= fun rest =>
        .ok (⟨i, v * 10⟩ :: rest) := by
  have hindex : index values srcIndex = .ok v := by simp only [index, hv]
  simp only [spotsFrom, if_pos ht, hindex, ok_bind]

theorem spotsFrom_before {t : ℤ} (ht : timestamps[srcIndex]? = some t) (hne : t ≠ dayStart + i) :
    spotsFrom timestamps values dayStart (n + 1) i srcIndex lastY =
      spotsFrom timestamps values dayStart n (i + 1) srcIndex lastY >>= fun rest =>
        .ok (⟨i, lastY * 10⟩ :: rest) := by
  have hno : ¬ timestamps[srcIndex]? = some (dayStart + i) := by
    rw [ht]
    exact fun h => hne (Option.some.inj h)
  have hlt : ¬ timestamps.length ≤ srcIndex := not_le.mpr (List.getElem?_eq_some_iff.mp ht).1
  simp only [spotsFrom, if_neg hno, ge_iff_le, if_neg hlt, ok_bind]

end Slot

/- The slot loop: no bucket that is still to come lies before slot `i`. -/
theorem spotsFrom_eq (ps : List (ℤ × ℤ)) (dayStart : ℤ) (n i srcIndex : ℕ) (lastY : ℤ)
    (hs : (ps.drop srcIndex).Pairwise fun a b => a.1 < b.1)
    (hge : ∀ p ∈ ps.drop srcIndex, dayStart + i ≤ p.1) :
    spotsFrom (ps.map Prod.fst) (ps.map Prod.snd) dayStart n i srcIndex lastY =
      .ok ((List.range' i n).map fun j : ℕ =>
        ⟨j, shownAt lastY (ps.drop srcIndex) (dayStart + j) * 10⟩) := by
  induction n generalizing i srcIndex lastY with
  | zero => rfl
  | succ n ih =>
    rw [List.range'_succ, List.map_cons]
    cases hd : ps.drop srcIndex with
    | nil =>
      have hle : (ps.map Prod.fst).length ≤ srcIndex := by
        rw [List.length_map]
        exact List.drop_eq_nil_iff.mp hd
      have ht := ih (i + 1) srcIndex 0 hs (by rw [hd]; simp)
      rw [spotsFrom_behind hle, ht, hd]
      rfl
    | cons p rest =>
      rw [hd] at hs hge
      obtain ⟨hhd, htl⟩ := List.pairwise_cons.mp hs
      have hp : ps[srcIndex]? = some p := by
        rw [← List.head?_drop, hd]
        rfl
      have hfst : (ps.map Prod.fst)[srcIndex]? = some p.1 := by rw [List.getElem?_map, hp]; rfl
      have hsnd : (ps.map Prod.snd)[srcIndex]? = some p.2 := by rw [List.getElem?_map, hp]; rfl
      have hrest : ps.drop (srcIndex + 1) = rest := by
        rw [← List.drop_drop, hd]
        rfl
      have hslot := hge p List.mem_cons_self
      have hnext : ∀ q ∈ rest, dayStart + (i + 1 : ℕ) ≤ q.1 := fun q hq => by
        have hlt := hhd q hq
        push_cast
        omega
      by_cases he : p.1 = dayStart + i
      · have ht := ih (i + 1) (srcIndex + 1) p.2 (by rwa [hrest]) (by rwa [hrest])
        have hcur : shownAt lastY (p :: rest) (dayStart + i) = p.2 := by
          rw [← he]
          exact shownAt_self lastY p.1 p.2 rest
        rw [spotsFrom_at (he ▸ hfst) hsnd, ht, ok_bind, hcur, hrest]
        refine congrArg (fun spots => Except.ok (_ :: spots)) (List.map_congr_left fun j hj => ?_)
        have hj' := (List.mem_range'_1.mp hj).1
        rw [shownAt_of_gt (t := p.1) (by omega)]
      · have ht := ih (i + 1) srcIndex lastY (by rwa [hd]) fun q hq => by
          rw [hd] at hq
          rcases List.mem_cons.mp hq with rfl | hq
          · push_cast
            omega
          · exact hnext q hq
        have hcur : shownAt lastY (p :: rest) (dayStart + i) = lastY :=
          shownAt_of_lt (t := p.1) (by omega)
        rw [spotsFrom_before hfst he, ht, ok_bind, hcur, hd]

/- The spots of one channel over the day. -/
def slots (day : ℕ) (ps : List (ℤ × ℤ)) : List FlSpot :=
  (List.range slotsPerDay).map fun j : ℕ => ⟨j, shownAt 0 ps (288 * day + j) * 10⟩

theorem slots_getElem? (day slot : ℕ) (ps : List (ℤ × ℤ)) (hlo : 288 * day ≤ slot)
    (hhi : slot < 288 * day + 288) :
    (slots day ps)[slot - 288 * day]? =
      some ⟨(slot - 288 * day : ℕ), shownAt 0 ps slot * 10⟩ := by
  have hj : slot - 288 * day < slotsPerDay := by
    show _ < 288
    omega
  have hslot : (288 * day : ℤ) + ((slot - 288 * day : ℕ) : ℤ) = slot := by omega
  rw [slots, List.getElem?_map, List.getElem?_range hj, Option.map_some, hslot]

/- The chart of decoded arrays: every channel shows its values over the day of the
first timestamp. -/
theorem decodeArchivedData_eq {bytes : Bytes} {ts : List ℤ} {cols : List (List ℤ)} {day : ℕ}
    (hd : decodeArrays bytes = .ok (ts :: cols)) (hne : ts ≠ [])
    (hs : ts.Pairwise (· < ·)) (hday : ∀ t ∈ ts, 288 * day ≤ t ∧ t < 288 * day + 288)
    (hl : ∀ c ∈ cols, c.length = ts.length) :
    decodeArchivedData bytes = .ok (cols.map fun c => slots day (ts.zip c)) := by
  obtain ⟨first, rest, rfl⟩ := List.exists_cons_of_ne_nil hne
  obtain ⟨hlo, hhi⟩ := hday first List.mem_cons_self
  have hstart : first.tdiv slotsPerDay * slotsPerDay = 288 * day := by
    rw [Int.tdiv_eq_ediv_of_nonneg (by omega)]
    show first / 288 * 288 = 288 * day
    omega
  rw [decodeArchivedData, hd, ok_bind]
  dsimp only
  rw [hstart]
  generalize first :: rest = ts at hs hday hl
  refine mapM_eq_pure fun c hc => ?_
  have hlen := hl c hc
  have hfst : (ts.zip c).map Prod.fst = ts := List.map_fst_zip (by omega)
  have hsnd : (ts.zip c).map Prod.snd = c := List.map_snd_zip (by omega)
  have hp : (ts.zip c).Pairwise fun a b => a.1 < b.1 := by
    rw [← List.pairwise_map (f := Prod.fst) (R := (· < ·)), hfst]
    exact hs
  have hge : ∀ p ∈ ts.zip c, (288 * day : ℤ) + (0 : ℕ) ≤ p.1 := fun p hp => by
    have hm := (hday p.1 (List.of_mem_zip hp).1).1
    simpa using hm
  have hspots := spotsFrom_eq (ts.zip c) (288 * day) slotsPerDay 0 0 0 hp hge
  rw [hfst, hsnd, List.drop_zero] at hspots
  rw [hspots, slots, List.range_eq_range']
  rfl

/-! ### What is left out and what is shown for it -/

/- Up to the last kept entry the chart shows at every entry its own value. -/
theorem shownAt_changesFrom (f : Datapoint → ℤ) (last : Datapoint)
    (es : List (UInt32 × Datapoint)) (hs : es.Pairwise fun a b => a.1 < b.1)
    {e k : UInt32 × Datapoint} (he : e ∈ es) (hk : k ∈ changesFrom last es) (hek : e.1 ≤ k.1) :
    shownAt (f last) ((changesFrom last es).map fun e => ((e.1.toNat : ℤ), f e.2)) e.1.toNat =
      f e.2 := by
  induction es generalizing last with
  | nil => cases he
  | cons x es ih =>
    obtain ⟨hhd, htl⟩ := List.pairwise_cons.mp hs
    have hlt : ∀ y ∈ es, (x.1.toNat : ℤ) < y.1.toNat := fun y hy => by
      have hxy := UInt32.lt_iff_toNat_lt.mp (hhd y hy)
      omega
    have hsub := (changesFrom_sublist x.2 es).subset
    rw [changesFrom] at hk ⊢
    split_ifs at hk ⊢ with hx
    · rw [← hx]
      rcases List.mem_cons.mp he with rfl | he
      · obtain ⟨y, ys, hy⟩ := List.exists_cons_of_ne_nil (List.ne_nil_of_mem hk)
        rw [hy, List.map_cons]
        exact shownAt_of_lt (hlt y (hsub (hy ▸ List.mem_cons_self)))
      · exact ih x.2 htl he hk
    · rw [List.map_cons]
      rcases List.mem_cons.mp he with rfl | hes
      · exact shownAt_self _ _ _ _
      · have hk' : k ∈ changesFrom x.2 es := by
          rcases List.mem_cons.mp hk with rfl | hk
          · exact absurd (hhd e hes) (not_lt.mpr hek)
          · exact hk
        rw [shownAt_of_gt (hlt e hes)]
        exact ih x.2 htl hes hk'

theorem shownAt_changes (f : Datapoint → ℤ) (es : List (UInt32 × Datapoint))
    (hs : es.Pairwise fun a b => a.1 < b.1) {e k : UInt32 × Datapoint} (he : e ∈ es)
    (hk : k ∈ changes es) (hek : e.1 ≤ k.1) :
    shownAt 0 ((changes es).map fun e => ((e.1.toNat : ℤ), f e.2)) e.1.toNat = f e.2 := by
  cases es with
  | nil => cases he
  | cons x es =>
    obtain ⟨hhd, htl⟩ := List.pairwise_cons.mp hs
    rw [changes, List.map_cons]
    rcases List.mem_cons.mp he with rfl | hes
    · exact shownAt_self _ _ _ _
    · have hlt := UInt32.lt_iff_toNat_lt.mp (hhd e hes)
      have hk' : k ∈ changesFrom x.2 es := by
        rcases List.mem_cons.mp hk with rfl | hk
        · exact absurd (hhd e hes) (not_lt.mpr hek)
        · exact hk
      rw [shownAt_of_gt (by omega)]
      exact shownAt_changesFrom f x.2 es htl hes hk' hek

/- The last two entries are equal. -/
def EndsRepeated (es : List (UInt32 × Datapoint)) (b : UInt32 × Datapoint) : Prop :=
  ∃ init a, es = init ++ [a] ++ [b] ∧ b.2 = a.2

/- Entries behind the last kept one all repeat its value. -/
theorem kept_or_endsRepeated (es : List (UInt32 × Datapoint))
    (hs : es.Pairwise fun a b => a.1 < b.1) {e : UInt32 × Datapoint} (he : e ∈ es) :
    (∃ k ∈ changes es, e.1 ≤ k.1) ∨ ∃ b, EndsRepeated es b ∧ e.2 = b.2 := by
  induction es using List.reverseRecOn with
  | nil => cases he
  | append_singleton es b ih =>
    obtain ⟨hes, _, hlast⟩ := List.pairwise_append.mp hs
    rcases List.eq_nil_or_concat es with rfl | ⟨init, a, rfl⟩
    · exact Or.inl ⟨b, List.mem_cons_self, by rw [List.mem_singleton.mp he]⟩
    rw [List.concat_eq_append] at *
    rw [changes_snoc]
    split_ifs with hba
    · have hends : EndsRepeated (init ++ [a] ++ [b]) b := ⟨init, a, rfl, hba⟩
      rcases List.mem_append.mp he with he | he
      · rcases ih hes he with hk | ⟨b', ⟨init', a', heq, _⟩, heb⟩
        · exact Or.inl hk
        · have hb' : b' = a := (List.append_inj_right' heq.symm rfl |> List.singleton_inj.mp)
          exact Or.inr ⟨b, hends, by rw [heb, hb', hba]⟩
      · exact Or.inr ⟨b, hends, by rw [List.mem_singleton.mp he]⟩
    · left
      refine ⟨b, List.mem_append_right _ List.mem_cons_self, ?_⟩
      rcases List.mem_append.mp he with he | he
      · exact le_of_lt (hlast e he b List.mem_cons_self)
      · rw [List.mem_singleton.mp he]

/- A repeated end is not kept: all kept entries lie before it. -/
theorem lt_of_endsRepeated {es : List (UInt32 × Datapoint)}
    (hs : es.Pairwise fun a b => a.1 < b.1) {b : UInt32 × Datapoint} (h : EndsRepeated es b) :
    ∀ k ∈ changes es, k.1 < b.1 := by
  obtain ⟨init, a, rfl, hba⟩ := h
  rw [changes_snoc, if_pos hba]
  intro k hk
  exact (List.pairwise_append.mp hs).2.2 k ((changes_sublist _).subset hk) b List.mem_cons_self

/-! ### When the chart shows the archive -/

/- Every bucket's value, in watts, stands at its slot of the day. -/
def ShowsArchive (w day : ℕ) (archive : Dataset) (spots : List (List FlSpot)) : Prop :=
  ∀ i < w, ∀ e ∈ archive.entries, ∃ channel spot, spots[i]? = some channel ∧
    channel[e.1.toNat - 288 * day]? = some spot ∧ spot.y = 10 * (e.2.getD i 0).toInt

/- A repeated value at the end of the day is all zero. -/
def EndsShown (es : List (UInt32 × Datapoint)) : Prop :=
  ∀ b, EndsRepeated es b → ∀ v ∈ b.2, v = 0

/- The decoded channel at the kept entries. -/
def decodedAt (es : List (UInt32 × Datapoint)) (i : ℕ) : List (ℤ × ℤ) :=
  ((changes es).map fun e => (e.1.toNat : ℤ)).zip
    (deltaDecode ((column (deltas (changes es)) i).map Int16.toInt))

def ChannelShown (es : List (UInt32 × Datapoint)) (i : ℕ) : Prop :=
  ∀ e ∈ es, shownAt 0 (decodedAt es i) e.1.toNat = (e.2.getD i 0).toInt

theorem length_deltaDecode (xs : List ℤ) : (deltaDecode xs).length = xs.length := by
  cases xs with
  | nil => rfl
  | cons x xs => rw [deltaDecode, List.length_cons, length_sumsFrom, List.length_cons]

theorem length_decoded (es : List (UInt32 × Datapoint)) (i : ℕ) :
    (deltaDecode ((column (deltas es) i).map Int16.toInt)).length = es.length := by
  rw [length_deltaDecode, List.length_map, column, List.length_map, length_deltas]

theorem decodedAt_of_fits {w : ℕ} {es : List (UInt32 × Datapoint)} (h : Uniform w es) {i : ℕ}
    (hfit : (column (changes es) i).IsChain Fits) :
    decodedAt es i = (changes es).map fun e => ((e.1.toNat : ℤ), (e.2.getD i 0).toInt) := by
  have hc := (deltaDecode_column_iff _ (h.sublist (changes_sublist es)) i).mpr hfit
  rw [decodedAt, hc, column, List.map_map, List.zip_map']
  rfl

theorem map_fst_decodedAt (es : List (UInt32 × Datapoint)) (i : ℕ) :
    (decodedAt es i).map Prod.fst = (changes es).map fun e => (e.1.toNat : ℤ) :=
  List.map_fst_zip (by rw [length_decoded, List.length_map])

theorem decodedAt_sorted {es : List (UInt32 × Datapoint)}
    (hs : es.Pairwise fun a b => a.1 < b.1) (i : ℕ) :
    (decodedAt es i).Pairwise fun a b => a.1 < b.1 := by
  rw [← List.pairwise_map (f := Prod.fst) (R := (· < ·)), map_fst_decodedAt, List.pairwise_map]
  refine (hs.sublist (changes_sublist es)).imp fun {a b} hab => ?_
  have hlt := UInt32.lt_iff_toNat_lt.mp hab
  omega

/- A shown channel was decoded right: at a kept entry the chart shows what was
decoded for it. -/
theorem fits_of_channelShown {w : ℕ} {es : List (UInt32 × Datapoint)} (h : Uniform w es)
    (hs : es.Pairwise fun a b => a.1 < b.1) {i : ℕ} (hshown : ChannelShown es i) :
    (column (changes es) i).IsChain Fits := by
  have hu := h.sublist (changes_sublist es)
  refine (deltaDecode_column_iff _ hu i).mp (List.ext_getElem ?_ fun k h1 h2 => ?_)
  · rw [length_decoded, List.length_map, column, List.length_map]
  · have hk : k < (changes es).length := by rwa [length_decoded] at h1
    have hmem : (((changes es)[k].1.toNat : ℤ),
        (deltaDecode ((column (deltas (changes es)) i).map Int16.toInt))[k]) ∈ decodedAt es i := by
      rw [decodedAt, List.mem_iff_getElem]
      refine ⟨k, by rw [List.length_zip, length_decoded, List.length_map]; omega, ?_⟩
      rw [List.getElem_zip, List.getElem_map]
    have hdecoded := shownAt_mem 0 _ (decodedAt_sorted hs i) hmem
    have hvalue := hshown _ ((changes_sublist es).subset (List.getElem_mem hk))
    rw [← hdecoded, hvalue]
    simp [column]

/- What the chart shows of one channel, by the two things that can go wrong. -/
theorem channelShown_iff {w : ℕ} {es : List (UInt32 × Datapoint)} (h : Uniform w es)
    (hs : es.Pairwise fun a b => a.1 < b.1) (i : ℕ) :
    ChannelShown es i ↔ (column (changes es) i).IsChain Fits ∧
      ∀ b, EndsRepeated es b → (b.2.getD i 0).toInt = 0 := by
  constructor
  · intro hshown
    refine ⟨fits_of_channelShown h hs hshown, fun b hb => ?_⟩
    have hmem : b ∈ es := by
      obtain ⟨init, a, rfl, _⟩ := hb
      exact List.mem_append_right _ List.mem_cons_self
    rw [← hshown b hmem]
    refine shownAt_behind 0 _ fun p hp => ?_
    have hp1 := List.mem_map_of_mem (f := Prod.fst) hp
    rw [map_fst_decodedAt] at hp1
    obtain ⟨k, hk, hkp⟩ := List.mem_map.mp hp1
    have hlt := UInt32.lt_iff_toNat_lt.mp (lt_of_endsRepeated hs hb k hk)
    omega
  · rintro ⟨hfit, hend⟩ e he
    rw [decodedAt_of_fits h hfit]
    by_cases hk : ∃ k ∈ changes es, e.1 ≤ k.1
    · obtain ⟨k, hk, hek⟩ := hk
      exact shownAt_changes (fun dp => (dp.getD i 0).toInt) es hs he hk hek
    · obtain ⟨b, hb, heb⟩ := (kept_or_endsRepeated es hs he).resolve_left hk
      rw [heb, hend b hb]
      refine shownAt_behind 0 _ fun p hp => ?_
      obtain ⟨k, hkm, rfl⟩ := List.mem_map.mp hp
      have hlt := UInt32.lt_iff_toNat_lt.mp (not_le.mp fun hle => hk ⟨k, hkm, hle⟩)
      show (k.1.toNat : ℤ) < e.1.toNat
      omega

theorem endsShown_iff {w : ℕ} {es : List (UInt32 × Datapoint)} (h : Uniform w es) :
    EndsShown es ↔ ∀ i < w, ∀ b, EndsRepeated es b → (b.2.getD i 0).toInt = 0 := by
  have hw : ∀ b, EndsRepeated es b → b.2.length = w := by
    rintro b ⟨init, a, rfl, _⟩
    exact h b (List.mem_append_right _ List.mem_cons_self)
  constructor
  · intro hend i hi b hb
    have hl : i < b.2.length := by rwa [hw b hb]
    rw [List.getD_eq_getElem _ _ hl, hend b hb _ (List.getElem_mem hl)]
    rfl
  · intro hend b hb v hv
    obtain ⟨i, hi, rfl⟩ := List.mem_iff_getElem.mp hv
    have h0 := hend i (by rwa [hw b hb] at hi) b hb
    rw [List.getD_eq_getElem _ _ hi] at h0
    exact Int16.toInt_inj.mp h0

/- The buckets of one day are its 288 slots. -/
theorem archive_day {raw archive : Dataset} {day : ℕ}
    (hday : ∀ e ∈ raw.entries, 86400 * day ≤ e.1.toNat ∧ e.1.toNat < 86400 * (day + 1))
    (hbuckets : ∀ b, (archive.get? b).isSome ↔ bucket raw (UInt32.ofInt 300) b ≠ []) :
    ∀ e ∈ archive.entries, 288 * day ≤ e.1.toNat ∧ e.1.toNat < 288 * day + 288 := by
  intro e he
  have hb : bucket raw (UInt32.ofInt 300) e.1 ≠ [] := by
    rw [← hbuckets, SortedMap.get?_eq_some.mpr he]
    rfl
  obtain ⟨dp, hdp⟩ := List.exists_mem_of_ne_nil _ hb
  obtain ⟨x, hx, _⟩ := List.mem_map.mp hdp
  obtain ⟨hxr, hxb⟩ := List.mem_filter.mp hx
  obtain ⟨hlo, hhi⟩ := hday x hxr
  have hdiv : e.1.toNat = x.1.toNat / 300 := by
    rw [← of_decide_eq_true hxb, UInt32.toNat_div]
    rfl
  omega

theorem archive_ne_nil {raw archive : Dataset} (hne : raw.entries ≠ [])
    (hbuckets : ∀ b, (archive.get? b).isSome ↔ bucket raw (UInt32.ofInt 300) b ≠ []) :
    archive.entries ≠ [] := by
  obtain ⟨x, hx⟩ := List.exists_mem_of_ne_nil _ hne
  have hb : bucket raw (UInt32.ofInt 300) (x.1 / UInt32.ofInt 300) ≠ [] :=
    List.ne_nil_of_mem (List.mem_map_of_mem (List.mem_filter.mpr ⟨hx, by simp⟩))
  obtain ⟨v, hv⟩ := Option.isSome_iff_exists.mp ((hbuckets _).mpr hb)
  exact List.ne_nil_of_mem (SortedMap.get?_eq_some.mp hv)

/- The web app's chart of an archive that lies in one day. -/
theorem decodeArchivedData_compressed {lib : CborLibrary} (hf : lib.Faithful) {w day : ℕ}
    {archive : Dataset} (hne : archive.entries ≠ []) (h : Uniform w archive.entries)
    (hday : ∀ e ∈ archive.entries, 288 * day ≤ e.1.toNat ∧ e.1.toNat < 288 * day + 288) :
    ∃ bytes, compressed lib archive = some bytes ∧ decodeArchivedData bytes =
      .ok ((List.range w).map fun i => slots day (decodedAt archive.entries i)) := by
  obtain ⟨bytes, hb, hdart⟩ := decodeArrays_compressed hf archive hne h
  refine ⟨bytes, hb, ?_⟩
  have hts : (changes archive.entries).map (fun e => (e.1.toNat : ℤ)) ≠ [] := by
    obtain ⟨e, es, he⟩ := List.exists_cons_of_ne_nil hne
    rw [he]
    exact List.cons_ne_nil _ _
  have hsorted : ((changes archive.entries).map fun e => (e.1.toNat : ℤ)).Pairwise (· < ·) :=
    List.pairwise_map.mpr ((changes_sorted archive).imp fun {a b} hab => by
      have hlt := UInt32.lt_iff_toNat_lt.mp hab
      omega)
  have hrange : ∀ t ∈ (changes archive.entries).map (fun e => (e.1.toNat : ℤ)),
      288 * day ≤ t ∧ t < 288 * day + 288 := by
    intro t ht
    obtain ⟨e, he, rfl⟩ := List.mem_map.mp ht
    have hd := hday e ((changes_sublist _).subset he)
    omega
  rw [decodeArchivedData_eq hdart hts hsorted hrange, List.map_map]
  · rfl
  · intro c hc
    obtain ⟨i, _, rfl⟩ := List.mem_map.mp hc
    rw [length_decoded, List.length_map]

theorem showsArchive_iff {w day : ℕ} {archive : Dataset}
    (hday : ∀ e ∈ archive.entries, 288 * day ≤ e.1.toNat ∧ e.1.toNat < 288 * day + 288) :
    ShowsArchive w day archive
        ((List.range w).map fun i => slots day (decodedAt archive.entries i)) ↔
      ∀ i < w, ChannelShown archive.entries i := by
  refine forall₂_congr fun i hi => forall₂_congr fun e he => ?_
  obtain ⟨hlo, hhi⟩ := hday e he
  have hspot := slots_getElem? day e.1.toNat (decodedAt archive.entries i) hlo hhi
  have hchannel : ((List.range w).map fun i => slots day (decodedAt archive.entries i))[i]? =
      some (slots day (decodedAt archive.entries i)) := by
    rw [List.getElem?_map, List.getElem?_range hi, Option.map_some]
  constructor
  · rintro ⟨channel, spot, hc, hsp, hy⟩
    obtain rfl := Option.some.inj (hchannel.symm.trans hc)
    obtain rfl := Option.some.inj (hspot.symm.trans hsp)
    dsimp only at hy
    omega
  · intro hshown
    refine ⟨_, _, hchannel, hspot, ?_⟩
    show _ * 10 = _
    omega

/- Archived at five minutes, a day is shown as it was archived exactly when no step
between buckets wraps and no repeated value other than zero ends the day. -/
theorem chart_shows_archive_iff (lib : CborLibrary) (hf : lib.Faithful) (w day : ℕ)
    (raw : Dataset) (hne : raw.entries ≠ []) (hu : Uniform w raw.entries)
    (hday : ∀ e ∈ raw.entries, 86400 * day ≤ e.1.toNat ∧ e.1.toNat < 86400 * (day + 1)) :
    ∃ archive, downsample raw 300 defaultWatts = some archive ∧
      ((∃ bytes spots, cborData lib raw 300 = some bytes ∧ decodeArchivedData bytes = .ok spots ∧
        ShowsArchive w day archive spots) ↔
      DifferencesFit w archive.entries ∧ EndsShown archive.entries) := by
  have hdivisor : UInt32.ofInt 300 ≠ 0 := by decide
  obtain ⟨archive, ha, hua, hbuckets⟩ := downsample_uniform hdivisor hu
  have hslots := archive_day hday hbuckets
  obtain ⟨bytes, hb, hspots⟩ :=
    decodeArchivedData_compressed hf (archive_ne_nil hne hbuckets) hua hslots
  have hcbor : cborData lib raw 300 = some bytes := by
    rw [cborData, ha, Option.bind_some, hb]
  have hshown : (∃ bytes spots, cborData lib raw 300 = some bytes ∧
      decodeArchivedData bytes = .ok spots ∧ ShowsArchive w day archive spots) ↔
      ∀ i < w, ChannelShown archive.entries i := by
    rw [← showsArchive_iff hslots]
    constructor
    · rintro ⟨bytes', spots, hb', hs', hx⟩
      obtain rfl := Option.some.inj (hcbor.symm.trans hb')
      obtain rfl := Except.ok.inj (hspots.symm.trans hs')
      exact hx
    · intro hx
      exact ⟨bytes, _, hcbor, hspots, hx⟩
  refine ⟨archive, ha, ?_⟩
  rw [hshown, endsShown_iff hua, ← differencesFit_changes, DifferencesFit, ← forall₂_and]
  exact forall₂_congr fun i _ => channelShown_iff hua archive.sorted i

/- Day 20000: the value of the first bucket is repeated in the second. -/
def repeatedDay : Dataset where
  entries := [(1728000000, [5]), (1728000300, [5])]
  sorted := by decide

theorem chart_shows_archive_iff_repeatedDay :
    ∃ archive, downsample repeatedDay 300 defaultWatts = some archive ∧
      ((∃ bytes spots, cborData .shortest repeatedDay 300 = some bytes ∧
        decodeArchivedData bytes = .ok spots ∧ ShowsArchive 1 20000 archive spots) ↔
      DifferencesFit 1 archive.entries ∧ EndsShown archive.entries) :=
  chart_shows_archive_iff .shortest CborLibrary.shortest_faithful 1 20000 repeatedDay
    (by decide) (by unfold Uniform; decide) (by decide)

/- The second bucket is 5 daW in the archive and 0 W on the chart. -/
theorem not_chart_shows_archive :
    ¬ ∀ (lib : CborLibrary) (w day : ℕ) (raw : Dataset), lib.Faithful → raw.entries ≠ [] →
      Uniform w raw.entries →
      (∀ e ∈ raw.entries, 86400 * day ≤ e.1.toNat ∧ e.1.toNat < 86400 * (day + 1)) →
      ∃ archive bytes spots, downsample raw 300 defaultWatts = some archive ∧
        cborData lib raw 300 = some bytes ∧ decodeArchivedData bytes = .ok spots ∧
        ShowsArchive w day archive spots := by
  intro hall
  obtain ⟨archive, bytes, spots, ha, hb, hs, hshown⟩ := hall .shortest 1 20000 repeatedDay
    CborLibrary.shortest_faithful (by decide) (by unfold Uniform; decide) (by decide)
  have hentries : (downsample repeatedDay 300 defaultWatts).map (·.entries) =
      some [(5760000, [5]), (5760001, [5])] := by decide +kernel
  have hbytes : cborData .shortest repeatedDay 300 = some [129, 26, 0, 87, 228, 0, 129, 5] := by
    decide +kernel
  have hchart : (decodeArchivedData [129, 26, 0, 87, 228, 0, 129, 5]).map
      (fun spots => spots[0]?.bind (·[1]?)) = .ok (some ⟨1, 0⟩) := by decide +kernel
  rw [ha, Option.map_some, Option.some.injEq] at hentries
  obtain rfl := Option.some.inj (hbytes.symm.trans hb)
  rw [hs] at hchart
  have hspot : spots[0]?.bind (·[1]?) = some ⟨1, 0⟩ := Except.ok.inj hchart
  have hmem : ((5760001, [5]) : UInt32 × Datapoint) ∈ archive.entries := by rw [hentries]; decide
  obtain ⟨channel, spot, hc, hsp, hy⟩ := hshown 0 (by decide) _ hmem
  rw [hc, Option.bind_some] at hspot
  obtain rfl := Option.some.inj (hspot.symm.trans hsp)
  exact absurd hy (by decide)

end Iotic.Webapp
