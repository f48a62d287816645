import Iotic.Common.CborLibrary
import Iotic.Database.DatabaseTypes
import Iotic.Lib.Sequences

/-!
# Archived data as CBOR (DatabaseUtil::cborEncode, cborDecode)

An array of timestamps, then an array for each value index. `none` is a vector
index past the end.
-/

namespace Iotic.Database
open ByteString Cbor Sequences Iotic.Common

/-! ### Encoding -/

/- The values at one index, one `dataPoint[i]` after the other. -/
def columnAt (data : DeltaDataset) (i : ℕ) : Option (List Int16) := data.mapM fun e => e.2[i]?

/- `data.size()` is a `size_t`. The column counter is an `int` that no vector
outgrows. -/
def cborEncode (lib : CborLibrary) (data : DeltaDataset) : Option Bytes :=
  match data with
  | [] => some []
  | front :: _ =>
    let writeArray := lib.writeArray (data.length % 2 ^ 64)
    let timestamps := data.flatMap fun e => lib.writeInt e.1.toNat
    let values := (List.range front.2.length).mapM fun i =>
      (columnAt data i).map fun column => writeArray ++ column.flatMap fun v => lib.writeInt v.toInt
    values.map fun values => writeArray ++ timestamps ++ values.flatten

/-! ### Decoding -/

inductive State where
  | initial
  | timestamp
  | value
  deriving DecidableEq, Repr

structure Listener where
  state : State
  timestamps : List UInt32
  values : List (List Int16)

namespace Listener

def init : Listener := ⟨.initial, [], []⟩

/- `_values.back().push_back(value)`; there is no last column in an empty vector. -/
def pushBackLast : List (List Int16) → Int16 → Option (List (List Int16))
  | [], _ => none
  | [column], v => some [column ++ [v]]
  | column :: next :: rest, v => (pushBackLast (next :: rest) v).map fun cs => column :: cs

def onInteger (l : Listener) (value : ℤ) : Option Listener :=
  match l.state with
  | .initial => some l
  | .timestamp => some { l with timestamps := l.timestamps ++ [UInt32.ofInt value] }
  | .value =>
    (pushBackLast l.values (Int16.ofInt value)).map fun values => { l with values := values }

/- `_timestamps.reserve(size)` leaves the contents as they are. -/
def onArray (l : Listener) : Listener :=
  match l.state with
  | .initial => { l with state := .timestamp }
  | .timestamp => { l with values := l.values ++ [[]], state := .value }
  | .value => { l with values := l.values ++ [[]] }

def on (l : Listener) : CborEvent → Option Listener
  | .onInteger value => l.onInteger value
  | .onArray _ => some l.onArray
  | .onOther => some l

end Listener

/- The loop over the timestamps that turns the columns into rows. -/
def rowsOf (timestamps : List UInt32) (values : List (List Int16)) : Option DeltaDataset :=
  timestamps.zipIdx.mapM fun t => (values.mapM fun column => column[t.2]?).map fun row => (t.1, row)

def cborDecode (lib : CborLibrary) (cborData : Bytes) : Option DeltaDataset :=
  ((lib.run cborData).foldlM Listener.on Listener.init).bind fun l => rowsOf l.timestamps l.values

/-! ### What is written -/

def column (data : DeltaDataset) (i : ℕ) : List Int16 := data.map fun e => e.2.getD i 0

theorem columnAt_eq {w i : ℕ} (data : DeltaDataset) (h : Uniform w data) (hi : i < w) :
    columnAt data i = some (column data i) := by
  refine mapM_eq_some fun e he => ?_
  have hl : i < e.2.length := by
    rw [h e he]
    exact hi
  rw [List.getD_eq_getElem?_getD, List.getElem?_eq_getElem hl, Option.getD_some]

/- The items of one array of integers. -/
def arrayItems (size : ℕ) (values : List ℤ) : List Item := .array size :: values.map .int

/- The arrays of the archive format: the timestamps and the columns. -/
def arrays (w : ℕ) (data : DeltaDataset) : List (List ℤ) :=
  (data.map fun e => (e.1.toNat : ℤ)) :: (List.range w).map fun i => (column data i).map Int16.toInt

theorem flatMap_write_arrayItems (lib : CborLibrary) (size : ℕ) (values : List ℤ) :
    (arrayItems size values).flatMap lib.write =
      lib.writeArray size ++ values.flatMap lib.writeInt := by
  rw [arrayItems, List.flatMap_cons, List.flatMap_map]
  rfl

/- The bytes of a non-empty dataset of one width are those of its arrays. -/
theorem cborEncode_eq (lib : CborLibrary) {w : ℕ} {data : DeltaDataset} (hne : data ≠ [])
    (h : Uniform w data) : cborEncode lib data =
      some (((arrays w data).flatMap (arrayItems (data.length % 2 ^ 64))).flatMap lib.write) := by
  obtain ⟨front, rest, rfl⟩ := List.exists_cons_of_ne_nil hne
  rw [cborEncode, h.head]
  generalize front :: rest = data at h
  generalize data.length % 2 ^ 64 = size
  have hv := mapM_eq_some (l := List.range w)
    (f := fun i => (columnAt data i).map fun c => lib.writeArray size ++ c.flatMap fun v =>
      lib.writeInt v.toInt)
    (g := fun i => lib.writeArray size ++ (column data i).flatMap fun v => lib.writeInt v.toInt)
    fun i hi => by rw [columnAt_eq data h (List.mem_range.mp hi)]; rfl
  rw [hv, Option.map_some, arrays, List.flatMap_cons, List.flatMap_append, flatMap_write_arrayItems,
    List.flatMap_map, List.flatMap_map, List.flatMap_assoc, ← List.flatMap_def]
  simp only [flatMap_write_arrayItems, List.flatMap_map]

/- An item is a head with the size, or an integer of one of the arrays. -/
theorem mem_arrayItems {size : ℕ} {values : List (List ℤ)} {item : Item}
    (h : item ∈ values.flatMap (arrayItems size)) :
    item = .array size ∨ ∃ vs ∈ values, ∃ v ∈ vs, item = .int v := by
  obtain ⟨vs, hvs, h⟩ := List.mem_flatMap.mp h
  rw [arrayItems, List.mem_cons, List.mem_map] at h
  rcases h with h | ⟨v, hv, h⟩
  · exact .inl h
  · exact .inr ⟨vs, hvs, v, hv, h.symm⟩

/- The integers of an archive are its timestamps and its 16-bit values. -/
theorem mem_arrays {w : ℕ} {d : DeltaDataset} {vs : List ℤ} {v : ℤ} (h : vs ∈ arrays w d)
    (hv : v ∈ vs) : (∃ e ∈ d, v = (e.1.toNat : ℤ)) ∨ ∃ x : Int16, v = x.toInt := by
  rcases List.mem_cons.mp h with rfl | h
  · obtain ⟨e, he, rfl⟩ := List.mem_map.mp hv
    exact .inl ⟨e, he, rfl⟩
  · obtain ⟨i, _, rfl⟩ := List.mem_map.mp h
    obtain ⟨x, _, rfl⟩ := List.mem_map.mp hv
    exact .inr ⟨x, rfl⟩

theorem arrays_writable {w size : ℕ} (hs : size < 2 ^ 64) (d : DeltaDataset) :
    ∀ item ∈ (arrays w d).flatMap (arrayItems size), CborLibrary.Writable item := by
  intro item hitem
  rcases mem_arrayItems hitem with rfl | ⟨vs, hvs, v, hv, rfl⟩
  · exact hs
  rcases mem_arrays hvs hv with ⟨e, _, rfl⟩ | ⟨x, rfl⟩
  · have hlt := e.1.toNat_lt
    exact ⟨by omega, by omega⟩
  · have hlo := Int16.le_toInt x
    have hhi := Int16.toInt_lt x
    exact ⟨by omega, by omega⟩

/- What is read goes through an `int`: the timestamps have to fit. -/
theorem arrays_readable {w size : ℕ} (hs : size < 2 ^ 64) {d : DeltaDataset}
    (ht : ∀ e ∈ d, e.1.toNat < 2 ^ 31) :
    ∀ item ∈ (arrays w d).flatMap (arrayItems size), CborLibrary.Readable item := by
  intro item hitem
  rcases mem_arrayItems hitem with rfl | ⟨vs, hvs, v, hv, rfl⟩
  · exact hs
  rcases mem_arrays hvs hv with ⟨e, he, rfl⟩ | ⟨x, rfl⟩
  · have hlt := ht e he
    exact ⟨by omega, by omega⟩
  · have hlo := Int16.le_toInt x
    have hhi := Int16.toInt_lt x
    exact ⟨by omega, by omega⟩

/-! ### What the listener collects -/

namespace Listener

theorem pushBackLast_append (columns : List (List Int16)) (c : List Int16) (v : Int16) :
    pushBackLast (columns ++ [c]) v = some (columns ++ [c ++ [v]]) := by
  induction columns with
  | nil => rfl
  | cons d columns ih =>
    cases columns with
    | nil => rfl
    | cons d' columns =>
      show (pushBackLast (d' :: columns ++ [c]) v).map _ = _
      rw [ih]
      rfl

theorem on_timestamps (ts : List UInt32) (values : List ℤ) :
    (values.map fun v => CborEvent.onInteger v).foldlM on ⟨.timestamp, ts, []⟩ =
      some ⟨.timestamp, ts ++ values.map UInt32.ofInt, []⟩ := by
  induction values generalizing ts with
  | nil => simp
  | cons v values ih =>
    have hs : on ⟨.timestamp, ts, []⟩ (.onInteger v) = some ⟨.timestamp, ts ++ [UInt32.ofInt v], []⟩ :=
      rfl
    rw [List.map_cons, List.foldlM_cons, hs]
    show List.foldlM on _ _ = _
    rw [ih, List.append_assoc]
    rfl

theorem on_values (ts : List UInt32) (columns : List (List Int16)) (c : List Int16)
    (values : List ℤ) :
    (values.map fun v => CborEvent.onInteger v).foldlM on ⟨.value, ts, columns ++ [c]⟩ =
      some ⟨.value, ts, columns ++ [c ++ values.map Int16.ofInt]⟩ := by
  induction values generalizing c with
  | nil => simp
  | cons v values ih =>
    have hs : on ⟨.value, ts, columns ++ [c]⟩ (.onInteger v) =
        some ⟨.value, ts, columns ++ [c ++ [Int16.ofInt v]]⟩ := by
      show (pushBackLast (columns ++ [c]) (Int16.ofInt v)).map _ = _
      rw [pushBackLast_append]
      rfl
    rw [List.map_cons, List.foldlM_cons, hs]
    show List.foldlM on _ _ = _
    rw [ih, List.append_assoc]
    rfl

/- Once the timestamps are there, each array appends one column. -/
theorem on_columns (s : State) (hs : s ≠ .initial) (ts : List UInt32)
    (columns : List (List Int16)) (size : ℕ) (values : List (List ℤ)) :
    ∃ s', ((values.flatMap (arrayItems size)).map event).foldlM on ⟨s, ts, columns⟩ =
      some ⟨s', ts, columns ++ values.map fun vs => vs.map Int16.ofInt⟩ := by
  induction values generalizing s columns with
  | nil => exact ⟨s, by simp⟩
  | cons vs values ih =>
    have ha : on ⟨s, ts, columns⟩ (.onArray size) = some ⟨.value, ts, columns ++ [[]]⟩ := by
      cases s with
      | initial => exact absurd rfl hs
      | timestamp => rfl
      | value => rfl
    obtain ⟨s', h⟩ := ih .value (by decide) (columns ++ [vs.map Int16.ofInt])
    refine ⟨s', ?_⟩
    rw [List.flatMap_cons, List.map_append, List.foldlM_append, arrayItems, List.map_cons,
      List.foldlM_cons, event, ha, List.map_map]
    show (List.foldlM on _ (vs.map fun v => CborEvent.onInteger v) >>= _) = _
    rw [on_values]
    show List.foldlM on _ _ = _
    rw [List.nil_append, h, List.append_assoc]
    rfl

end Listener

/-! ### Rows back from columns -/

theorem row_of_columns {w : ℕ} (row : Datapoint) (h : row.length = w) :
    ((List.range w).map fun i => row.getD i 0) = row := by
  apply List.ext_getElem
  · rw [List.length_map, List.length_range, h]
  · intro i h1 h2
    rw [List.getElem_map, List.getElem_range, List.getD_eq_getElem?_getD,
      List.getElem?_eq_getElem h2, Option.getD_some]

theorem rowsOf_columns {w : ℕ} (data : DeltaDataset) (h : Uniform w data) :
    rowsOf (data.map Prod.fst) ((List.range w).map (column data)) = some data := by
  have hrow : ∀ (i : ℕ) (hi : i < data.length),
      ((List.range w).map (column data)).mapM (fun values => values[i]?) = some (data[i].2) := by
    intro i hi
    rw [List.mapM_map]
    have hm := mapM_eq_some (l := List.range w) (f := fun j => (column data j)[i]?)
      (g := fun j => data[i].2.getD j 0) fun j _ => by
        rw [column, List.getElem?_map, List.getElem?_eq_getElem hi, Option.map_some]
    rw [row_of_columns _ (h _ (List.getElem_mem hi))] at hm
    exact hm
  have hm := mapM_eq_some (l := (data.map Prod.fst).zipIdx)
    (f := fun t => (((List.range w).map (column data)).mapM fun values => values[t.2]?).map
      fun row => (t.1, row))
    (g := fun t => (t.1, (data.getD t.2 (0, [])).2)) fun t ht => by
      have hl := List.snd_lt_of_mem_zipIdx ht
      rw [List.length_map, Nat.add_zero] at hl
      rw [hrow t.2 hl, Option.map_some, List.getD_eq_getElem?_getD, List.getElem?_eq_getElem hl,
        Option.getD_some]
  rw [rowsOf, hm]
  congr 1
  apply List.ext_getElem
  · simp
  · intro i h1 h2
    simp [List.getElem?_eq_getElem h2]

/-! ### The round trip -/

theorem ofInt_toNat (t : UInt32) : UInt32.ofInt (t.toNat : ℤ) = t := by
  have hlt := t.toNat_lt
  have hm : ((t.toNat : ℤ) % 2 ^ 32).toNat = t.toNat := by omega
  rw [UInt32.ofInt, hm, UInt32.ofNat_toNat]

theorem map_ofInt_toInt (c : List Int16) : (c.map Int16.toInt).map Int16.ofInt = c := by
  have hid : Int16.ofInt ∘ Int16.toInt = id := funext Int16.ofInt_toInt
  rw [List.map_map, hid, List.map_id]

/- After the whole of an archive the listener holds its timestamps and columns. -/
theorem Listener.on_arrays (w size : ℕ) (d : DeltaDataset) :
    ∃ s, (((arrays w d).flatMap (arrayItems size)).map event).foldlM Listener.on Listener.init =
      some ⟨s, d.map Prod.fst, (List.range w).map (column d)⟩ := by
  have hts : (d.map fun e => (e.1.toNat : ℤ)).map UInt32.ofInt = d.map Prod.fst := by
    rw [List.map_map]
    exact List.map_congr_left fun e _ => ofInt_toNat e.1
  have hcs : ((List.range w).map fun i => (column d i).map Int16.toInt).map
      (fun vs => vs.map Int16.ofInt) = (List.range w).map (column d) := by
    rw [List.map_map]
    exact List.map_congr_left fun i _ => map_ofInt_toInt (column d i)
  obtain ⟨s, hs⟩ := Listener.on_columns .timestamp (by decide) (d.map Prod.fst) [] size
    ((List.range w).map fun i => (column d i).map Int16.toInt)
  rw [hcs, List.nil_append] at hs
  have ha : Listener.on Listener.init (event (.array size)) = some ⟨.timestamp, [], []⟩ := rfl
  refine ⟨s, ?_⟩
  rw [arrays, List.flatMap_cons, List.map_append, List.foldlM_append, arrayItems, List.map_cons,
    List.foldlM_cons, ha, List.map_map]
  show (List.foldlM Listener.on _ (List.map (fun v => CborEvent.onInteger v) _) >>= _) = _
  rw [Listener.on_timestamps, List.nil_append, hts]
  exact hs

theorem cborDecode_arrays {lib : CborLibrary} (hf : lib.Faithful) {w size : ℕ}
    (hs : size < 2 ^ 64) {d : DeltaDataset} (h : Uniform w d) (ht : ∀ e ∈ d, e.1.toNat < 2 ^ 31) :
    cborDecode lib (((arrays w d).flatMap (arrayItems size)).flatMap lib.write) = some d := by
  obtain ⟨s, hl⟩ := Listener.on_arrays w size d
  rw [cborDecode, hf.run_write _ (arrays_readable hs ht), hl, Option.bind_some]
  exact rowsOf_columns d h

/- The decoder gets back every delta dataset whose timestamps an `int` holds. -/
theorem cborDecode_cborEncode (lib : CborLibrary) (hf : lib.Faithful) (w : ℕ) (d : DeltaDataset)
    (h : Uniform w d) (ht : ∀ e ∈ d, e.1.toNat < 2 ^ 31) :
    ∃ bytes, cborEncode lib d = some bytes ∧ cborDecode lib bytes = some d := by
  rcases eq_or_ne d [] with rfl | hne
  · have hr : lib.run [] = [] := hf.run_write [] (by simp)
    refine ⟨[], rfl, ?_⟩
    rw [cborDecode, hr]
    rfl
  · have hsize : d.length % 2 ^ 64 < 2 ^ 64 := Nat.mod_lt _ (by decide)
    exact ⟨_, cborEncode_eq lib hne h, cborDecode_arrays hf hsize h ht⟩

/- Three rows of two values, in heads of one to five bytes. -/
theorem cborDecode_cborEncode_three :
    ∃ bytes, cborEncode .shortest [(5920704, [-300, 7]), (1, [0, -25]), (30, [24, 256])] =
      some bytes ∧ cborDecode .shortest bytes =
      some [(5920704, [-300, 7]), (1, [0, -25]), (30, [24, 256])] :=
  cborDecode_cborEncode .shortest CborLibrary.shortest_faithful 2 _ (by unfold Uniform; decide)
    (by decide)

end Iotic.Database
