import Iotic.Database.ArchiveCoding
import Iotic.Webserver.SiteHistory

/-!
# Site history in the web app (webapp/lib/io/web_socket_service.dart)

The other end of the daemon's site history. The CBOR package is third-party code:
a parameter, with what is relied on as `Reads`. `none` is a thrown exception: a
failed cast, or the first element of an empty list.
-/

namespace Iotic.Webapp
open ByteString Cbor Sequences Iotic.Webserver

structure CborPackage where
  decode : Bytes → Option Json

/- Any form RFC 8949 allows is read. -/
def CborPackage.Reads (package : CborPackage) : Prop :=
  ∀ j bytes, jsonFormat.Encodes j bytes → package.decode bytes = some j

def CborPackage.ofFormat : CborPackage := ⟨fun bytes => (jsonFormat.read bytes).map Prod.fst⟩

theorem CborPackage.ofFormat_reads : CborPackage.ofFormat.Reads := by
  intro j bytes h
  show (jsonFormat.read bytes).map Prod.fst = some j
  rw [jsonFormat.read_eq h]
  rfl

structure SiteDataHistoric where
  ts : List ℤ
  pvPower : List ℤ
  gridPower : List ℤ
  deriving DecidableEq, Repr

/- `timestamps[i + 1] += timestamps[i]` in place, from the first element on. -/
def sumTimestamps : List ℤ → List ℤ
  | [] => []
  | first :: rest => rest.scanl (fun previous value => value + previous) first

/- `powers.first *= 10`, then `powers[i + 1] = powers[i] + powers[i + 1] * 10`. -/
def sumPowers : List ℤ → Option (List ℤ)
  | [] => none
  | first :: rest => some (rest.scanl (fun previous value => previous + value * 10) (first * 10))

/- A message about another thing is ignored. -/
def parseBinary (package : CborPackage) (siteDataHistoric : SiteDataHistoric) (message : Bytes) :
    Option SiteDataHistoric := do
  let map ← package.decode message
  match member (enumToString "site") map with
  | none => some siteDataHistoric
  | some values =>
    let timestamps ← member (enumToString "timestamp") values
    let pvPowers ← member (enumToString "pv_power") values
    let gridPowers ← member (enumToString "grid_power") values
    let pvPowers ← sumPowers pvPowers
    let gridPowers ← sumPowers gridPowers
    some ⟨sumTimestamps timestamps, pvPowers, gridPowers⟩

/-! ### Sums of differences -/

theorem sumTimestamps_differences {ts : List UInt32} (h : ts.Pairwise fun a b => a < b) :
    sumTimestamps ((differences ts).map fun v => (v.toNat : ℤ)) = ts.map fun v => (v.toNat : ℤ) := by
  cases ts with
  | nil => rfl
  | cons t ts =>
    have hchain : (t :: ts).IsChain fun a b => ((b - a).toNat : ℤ) = (b.toNat : ℤ) - a.toNat :=
      (h.imp fun hlt => toNat_sub_ascending hlt).isChain
    have hsums := (sums_map_diffs_iff (fun v : UInt32 => (v.toNat : ℤ)) t ts).mpr hchain
    have hscan : ∀ (acc : ℤ) (ds : List ℤ),
        ds.scanl (fun previous value => value + previous) acc = acc :: sumsFrom acc ds := by
      intro acc ds
      have hadd : (fun previous value : ℤ => value + previous) =
          fun previous value => previous + value * 1 := by
        funext previous value
        omega
      have hs := scanl_scaled 1 acc ds
      rw [Int.mul_one] at hs
      rw [hadd, hs]
      simp
    rw [differences_cons, List.map_cons, sumTimestamps, hscan, hsums, List.map_cons]

/- Powers come back in whole tens. -/
theorem sumPowers_differences {powers : List Int32} (hne : powers ≠ []) :
    sumPowers ((differences (powers.map fun v => v / 10)).map Int32.toInt) =
      some (powers.map fun v => v.toInt.tdiv 10 * 10) := by
  obtain ⟨p, ps, rfl⟩ := List.exists_cons_of_ne_nil hne
  have hchain : ((p / 10) :: ps.map fun v => v / 10).IsChain fun a b =>
      (b - a).toInt = b.toInt - a.toInt := by
    show ((p :: ps).map fun v => v / 10).IsChain _
    rw [List.isChain_map]
    exact (List.pairwise_of_forall fun a b => toInt_sub_tens a b).isChain
  have hsums := (sums_map_diffs_iff Int32.toInt (p / 10) (ps.map fun v => v / 10)).mpr hchain
  rw [List.map_cons, differences_cons, List.map_cons, sumPowers, scanl_scaled, hsums]
  simp only [List.map_cons, List.map_map, Function.comp_def, toInt_tens]

/-! ### The history received -/

theorem serializeSiteHistory_slice (lib : JsonLibrary) {history : List Properties} {fromTs toTs : ℤ}
    (hne : slice history fromTs toTs ≠ []) :
    serializeSiteHistory lib history fromTs toTs =
      some (lib.toCbor (document (slice history fromTs toTs))) := by
  have hlength := List.length_pos_iff.mpr hne
  unfold slice at hlength
  rw [List.length_drop, List.length_take] at hlength
  have hhistory : history ≠ [] := by
    rintro rfl
    simp at hlength
  unfold serializeSiteHistory
  rw [if_neg (by simp only [hhistory, false_or]; omega), if_neg (by omega)]

theorem parseBinary_document {package : CborPackage} (hp : package.Reads) {entries : List Properties}
    (hne : entries ≠ []) (hts : entries.Pairwise fun a b => a.ts < b.ts)
    (siteDataHistoric : SiteDataHistoric) {message : Bytes}
    (h : jsonFormat.Encodes (document entries) message) :
    parseBinary package siteDataHistoric message =
      some ⟨entries.map fun e => (e.ts.toNat : ℤ), entries.map fun e => e.pvPower.toInt.tdiv 10 * 10,
        entries.map fun e => e.gridPower.toInt.tdiv 10 * 10⟩ := by
  have htimestamps := sumTimestamps_differences (List.pairwise_map.mpr hts)
  have hpv := sumPowers_differences (List.map_eq_nil_iff.not.mpr hne : entries.map Properties.pvPower ≠ [])
  have hgrid := sumPowers_differences
    (List.map_eq_nil_iff.not.mpr hne : entries.map Properties.gridPower ≠ [])
  have hmembers : ∀ grid pv ts : List ℤ,
      member (enumToString "timestamp") [(enumToString "grid_power", grid),
        (enumToString "pv_power", pv), (enumToString "timestamp", ts)] = some ts ∧
      member (enumToString "pv_power") [(enumToString "grid_power", grid),
        (enumToString "pv_power", pv), (enumToString "timestamp", ts)] = some pv ∧
      member (enumToString "grid_power") [(enumToString "grid_power", grid),
        (enumToString "pv_power", pv), (enumToString "timestamp", ts)] = some grid :=
    fun _ _ _ => ⟨rfl, rfl, rfl⟩
  have hsite : ∀ values : List (Bytes × List ℤ),
      member (enumToString "site") [(enumToString "site", values)] = some values := fun _ => rfl
  unfold parseBinary
  rw [hp _ _ h, document_eq]
  simp only [Option.bind_eq_bind, Option.bind_some, hsite, hmembers, hpv, hgrid, htimestamps]
  simp only [List.map_map]
  rfl

/-- For every range of the history that is not empty and whose timestamps ascend:
the web app gets the same timestamps, and every power as the whole tens of watts it
has, towards zero. -/
theorem parseBinary_serializeSiteHistory (lib : JsonLibrary) (hl : lib.Faithful)
    (package : CborPackage) (hp : package.Reads) (history : List Properties) (fromTs toTs : ℤ)
    (hne : slice history fromTs toTs ≠ [])
    (hts : (slice history fromTs toTs).Pairwise fun a b => a.ts < b.ts)
    (siteDataHistoric : SiteDataHistoric) :
    ∃ message, serializeSiteHistory lib history fromTs toTs = some message ∧
      parseBinary package siteDataHistoric message = some
        ⟨(slice history fromTs toTs).map fun e => (e.ts.toNat : ℤ),
          (slice history fromTs toTs).map fun e => 10 * e.pvPower.toInt.tdiv 10,
          (slice history fromTs toTs).map fun e => 10 * e.gridPower.toInt.tdiv 10⟩ := by
  have hlength : (slice history fromTs toTs).length < 2 ^ 64 := by
    have hle := Database.length_entries_le ((slice history fromTs toTs).map fun e => (e.ts, []))
      (List.pairwise_map.mpr hts)
    rw [List.length_map] at hle
    omega
  have hencodes := hl _ (writable_document hlength)
  refine ⟨_, serializeSiteHistory_slice lib hne, ?_⟩
  simp only [parseBinary_document hp hne hts siteDataHistoric hencodes, Int.mul_comm 10]

/- Rises, falls and both ends of the range of `int`. -/
def threeEntries : List Properties :=
  [⟨20, 119, -2147483648⟩, ⟨30, 10, 2147483647⟩, ⟨45, -7, -19⟩]

theorem parseBinary_serializeSiteHistory_three :
    ∃ message, serializeSiteHistory .shortest threeEntries 29 46 = some message ∧
      parseBinary .ofFormat ⟨[], [], []⟩ message = some
        ⟨(slice threeEntries 29 46).map fun e => (e.ts.toNat : ℤ),
          (slice threeEntries 29 46).map fun e => 10 * e.pvPower.toInt.tdiv 10,
          (slice threeEntries 29 46).map fun e => 10 * e.gridPower.toInt.tdiv 10⟩ :=
  parseBinary_serializeSiteHistory .shortest JsonLibrary.shortest_faithful .ofFormat
    CborPackage.ofFormat_reads threeEntries 29 46 (by decide) (by decide) ⟨[], [], []⟩

example : (slice threeEntries 29 46).map Properties.ts = [20, 30, 45] ∧
    (slice threeEntries 45 46).map Properties.ts = [45] ∧ slice threeEntries 0 20 = [] := by decide

end Iotic.Webapp
