import Iotic.Webapp.ArchiveChart
import Iotic.Webserver.DatabaseRoute

/-!
# Archived data over HTTP (webapp/lib/io/http_service.dart)

The web app asks the archive route for one property on one day. What is sent back is
decoded whatever it is: an error comes with status 200 as well.
-/

namespace Iotic.Webapp
open ByteString Iotic.Common Iotic.Database Iotic.Webserver

/-! ### The request -/

/- `toString().padLeft(width, '0')`. -/
def padLeft (width : ℕ) (text : Name) : Name := List.replicate (width - text.length) '0' ++ text

def formatted (date : YearMonthDay) : Name :=
  padLeft 4 (toDecimal date.year) ++
    '-' :: (padLeft 2 (toDecimal date.month) ++ '-' :: padLeft 2 (toDecimal date.day))

/- The path of the URI. What `Uri.parse` makes of other text (a query, a fragment, escapes,
dot segments) is left out: the parts are `Segment`s, which stand for themselves. -/
def buildUri (thingId propertyId : Name) (date : YearMonthDay) : Name :=
  ['/'].intercalate [[], "database".toList, thingId, propertyId, formatted date]

/- `/database/:thing/:key/:date`, without a query. -/
def archiveRoute (path : Name) : Option ArchiveRequest :=
  match path.splitOn '/' with
  | [[], database, thing, key, date] =>
    if database = "database".toList then some ⟨thing, key, date, []⟩ else none
  | _ => none

/-! ### The response -/

def bodyBytes : Response → Bytes
  | .text body => body.flatMap String.utf8EncodeChar
  | .cbor body => body

/- The session after the request; `none` is what is undefined in the daemon, or another
route. -/
def fetchArchivedData (lib : CborLibrary) (keys : List ThingPropertyKey) (s : Session)
    (thingId propertyId : Name) (date : YearMonthDay) :
    Option (Except DartException (List (List FlSpot)) × Session) :=
  (archiveRoute (buildUri thingId propertyId date)).bind fun req =>
    (getDatabase lib keys s.now s.db req).map fun r =>
      (decodeArchivedData (bodyBytes r.1), { s with db := r.2 })

/-! ### Dates as text -/

theorem stoi_eq_ofDigitChars (digits : List Char) : stoi digits = Nat.ofDigitChars 10 digits 0 := by
  rw [Nat.ofDigitChars_eq_foldl, stoi]
  congr 1
  funext n c
  rw [Nat.mul_comm]
  rfl

theorem toDecimal_natCast (n : ℕ) : toDecimal n = Nat.toDigits 10 n := by
  unfold toDecimal
  rw [if_neg (by omega), Int.natAbs_natCast]

/- A number that fits is written with exactly so many digits, and read back. -/
theorem padLeft_digits (n width : ℕ) (hw : 0 < width) (h : n < 10 ^ width) :
    (padLeft width (toDecimal n)).length = width ∧
      (∀ c ∈ padLeft width (toDecimal n), c.isDigit = true) ∧
        stoi (padLeft width (toDecimal n)) = n := by
  rw [toDecimal_natCast]
  have hlength := (Nat.length_toDigits_le_iff (b := 10) (by decide) hw).mpr h
  refine ⟨?_, fun c hc => ?_, ?_⟩
  · rw [padLeft, List.length_append, List.length_replicate]
    omega
  · rcases List.mem_append.mp hc with hc | hc
    · rw [List.eq_of_mem_replicate hc]
      rfl
    · exact isDigit_toDigits hc
  · rw [stoi_eq_ofDigitChars, padLeft, Nat.ofDigitChars_append, Nat.ofDigitChars_replicate_zero,
      Nat.mul_zero, Nat.ofDigitChars_ten_toDigits]

/- The pattern takes a year of four digits. -/
theorem parseYmd_text (ys : Name) {ms ds : Name} (hm : ms.length = 2) (hd : ds.length = 2)
    (hms : ∀ c ∈ ms, c.isDigit = true) (hds : ∀ c ∈ ds, c.isDigit = true) :
    parseYmd (ys ++ '-' :: (ms ++ '-' :: ds)) =
      if ys.length = 4 ∧ ys.all Char.isDigit = true then ⟨stoi ys, stoi ms, stoi ds⟩
      else ⟨0, 0, 0⟩ := by
  obtain ⟨m1, m2, rfl⟩ := List.length_eq_two.mp hm
  obtain ⟨d1, d2, rfl⟩ := List.length_eq_two.mp hd
  simp only [List.forall_mem_cons, List.not_mem_nil, false_implies, implies_true, and_true] at hms hds
  by_cases hlength : ys.length = 4
  · obtain ⟨y1, ys, rfl⟩ := List.exists_cons_of_length_eq_add_one hlength
    obtain ⟨y2, y3, y4, rfl⟩ := List.length_eq_three.mp (Nat.succ.inj hlength)
    show (if _ then _ else _) = _
    refine if_congr ?_ rfl rfl
    simp only [List.all_cons, hms, hds, List.all_nil, Bool.and_true, Bool.and_eq_true, and_true,
      List.length_cons, List.length_nil, true_and]
  · rw [if_neg fun h => hlength h.1]
    have hten : (ys ++ '-' :: ([m1, m2] ++ '-' :: [d1, d2])).length ≠ 10 := by
      simp only [List.length_append, List.length_cons, List.length_nil]
      omega
    generalize ys ++ '-' :: ([m1, m2] ++ '-' :: [d1, d2]) = text at hten
    exact parseYmd.eq_2 text fun _ _ _ _ _ _ _ _ _ _ htext => hten (htext ▸ rfl)

theorem padLeft_length (width : ℕ) (text : Name) :
    (padLeft width text).length = max width text.length := by
  rw [padLeft, List.length_append, List.length_replicate]
  omega

/- Any other year has more than four characters, or a sign. -/
theorem year_text (year : ℤ) : ((padLeft 4 (toDecimal year)).length = 4 ∧
    (padLeft 4 (toDecimal year)).all Char.isDigit = true) ↔ 0 ≤ year ∧ year < 10000 := by
  rw [List.all_eq_true]
  by_cases hneg : year < 0
  · refine iff_of_false (fun h => ?_) (by omega)
    have hsign : '-' ∈ padLeft 4 (toDecimal year) := by
      rw [padLeft, toDecimal, if_pos hneg]
      exact List.mem_append_right _ List.mem_cons_self
    exact absurd (h.2 '-' hsign) (by decide)
  · obtain ⟨n, rfl⟩ := Int.eq_ofNat_of_zero_le (not_lt.mp hneg)
    constructor
    · intro h
      have hlength := h.1
      rw [padLeft_length, toDecimal_natCast] at hlength
      have hlt := (Nat.length_toDigits_le_iff (b := 10) (n := n) (k := 4) (by decide) (by decide)).mp
        (by omega)
      omega
    · intro h
      obtain ⟨hl, hdigits, -⟩ := padLeft_digits n 4 (by decide) (by omega)
      exact ⟨hl, hdigits⟩

/- A day of the calendar is read back where its year has four digits. -/
theorem parseYmd_formatted {date : YearMonthDay} (h : date.ok = true) :
    parseYmd (formatted date) =
      if 0 ≤ date.year ∧ date.year < 10000 then date else ⟨0, 0, 0⟩ := by
  simp only [YearMonthDay.ok, Bool.and_eq_true, decide_eq_true_eq] at h
  obtain ⟨⟨⟨-, hmonth⟩, -⟩, hlast⟩ := h
  have hday : date.day ≤ 31 := by
    refine hlast.trans ?_
    unfold YearMonthDay.lastDay
    split_ifs <;> omega
  obtain ⟨hml, hms, hm⟩ := padLeft_digits date.month 2 (by decide) (by omega)
  obtain ⟨hdl, hds, hd⟩ := padLeft_digits date.day 2 (by decide) (by omega)
  rw [formatted, parseYmd_text _ hml hdl hms hds, hm, hd]
  by_cases hyear : 0 ≤ date.year ∧ date.year < 10000
  · rw [if_pos ((year_text date.year).mpr hyear), if_pos hyear]
    obtain ⟨n, hn⟩ := Int.eq_ofNat_of_zero_le hyear.1
    obtain ⟨-, -, hy⟩ := padLeft_digits n 4 (by decide) (by omega)
    rw [← hn] at hy
    rw [hy, ← hn]
  · rw [if_neg fun h => hyear ((year_text date.year).mp h), if_neg hyear]

/-! ### The request received -/

/- What separates nothing in a URI and is never escaped. -/
def isUnreserved (c : Char) : Bool := c.isAlphanum || c = '-' || c = '.' || c = '_' || c = '~'

/- A part of a path that `Uri.parse` and the route leave as it is. -/
structure Segment (text : Name) : Prop where
  nonempty : text ≠ []
  unreserved : ∀ c ∈ text, isUnreserved c = true
  noDots : text ≠ ['.'] ∧ text ≠ ['.', '.']

instance (text : Name) : Decidable (Segment text) :=
  decidable_of_iff (text ≠ [] ∧ text.all isUnreserved = true ∧ text ≠ ['.'] ∧ text ≠ ['.', '.'])
    ⟨fun h => ⟨h.1, List.all_eq_true.mp h.2.1, h.2.2⟩,
      fun h => ⟨h.nonempty, List.all_eq_true.mpr h.unreserved, h.noDots⟩⟩

theorem Segment.noSlash {text : Name} (h : Segment text) : '/' ∉ text := fun hmem =>
  absurd (h.unreserved '/' hmem) (by decide)

theorem isUnreserved_isDigit {c : Char} (h : c.isDigit = true) : isUnreserved c = true := by
  simp [isUnreserved, Char.isAlphanum, h]

theorem isUnreserved_toDecimal (z : ℤ) : ∀ c ∈ toDecimal z, isUnreserved c = true := by
  have hdigits : ∀ n, ∀ c ∈ Nat.toDigits 10 n, isUnreserved c = true := fun n c hc =>
    isUnreserved_isDigit (isDigit_toDigits hc)
  unfold toDecimal
  split_ifs
  · exact List.forall_mem_cons.mpr ⟨by decide, hdigits _⟩
  · exact hdigits _

theorem isUnreserved_padLeft (width : ℕ) {text : Name} (h : ∀ c ∈ text, isUnreserved c = true) :
    ∀ c ∈ padLeft width text, isUnreserved c = true := by
  refine List.forall_mem_append.mpr ⟨fun c hc => ?_, h⟩
  rw [List.eq_of_mem_replicate hc]
  decide

theorem segment_formatted (date : YearMonthDay) : Segment (formatted date) := by
  have hy := isUnreserved_padLeft 4 (isUnreserved_toDecimal date.year)
  have hm := isUnreserved_padLeft 2 (isUnreserved_toDecimal date.month)
  have hd := isUnreserved_padLeft 2 (isUnreserved_toDecimal date.day)
  have hdash : '-' ∈ formatted date := List.mem_append_right _ List.mem_cons_self
  refine ⟨List.ne_nil_of_mem hdash, ?_, ?_, ?_⟩
  · simp only [formatted, List.forall_mem_append, List.forall_mem_cons]
    exact ⟨hy, by decide, hm, by decide, hd⟩
  · intro h
    exact absurd (h ▸ hdash) (by decide)
  · intro h
    exact absurd (h ▸ hdash) (by decide)

/- What is asked for is what the route gets. -/
theorem archiveRoute_buildUri {thingId propertyId : Name} (ht : Segment thingId)
    (hp : Segment propertyId) (date : YearMonthDay) :
    archiveRoute (buildUri thingId propertyId date) =
      some ⟨thingId, propertyId, formatted date, []⟩ := by
  have hsegments : ∀ l ∈ [[], "database".toList, thingId, propertyId, formatted date], '/' ∉ l := by
    simp only [List.forall_mem_cons, List.not_mem_nil, not_false_eq_true, true_and, false_implies,
      implies_true, and_true]
    exact ⟨by decide, ht.noSlash, hp.noSlash, (segment_formatted date).noSlash⟩
  rw [archiveRoute, buildUri, List.splitOn_intercalate '/' hsegments (by simp)]
  simp

/- The characters of an identifier are unreserved, and no dots. -/
theorem segment_enumName (property : ThingPropertyKey) : Segment property.enumName := by
  have hid := property.identifier
  cases hname : property.enumName with
  | nil => simp [hname, isIdentifier] at hid
  | cons c cs =>
    rw [hname, isIdentifier, Bool.and_eq_true, List.all_eq_true] at hid
    have hc : isUnreserved c = true ∧ c ≠ '.' := by
      rcases (Bool.or_eq_true _ _).mp hid.1 with h | h
      · refine ⟨by simp [isUnreserved, Char.isAlphanum, h], ?_⟩
        rintro rfl
        exact absurd h (by decide)
      · obtain rfl := of_decide_eq_true h
        decide
    have hcs : ∀ d ∈ cs, isUnreserved d = true := by
      intro d hd
      rcases (Bool.or_eq_true _ _).mp (hid.2 d hd) with h | h
      · simp [isUnreserved, h]
      · obtain rfl := of_decide_eq_true h
        decide
    exact ⟨List.cons_ne_nil _ _, List.forall_mem_cons.mpr ⟨hc.1, hcs⟩,
      fun h => hc.2 (List.cons.inj h).1, fun h => hc.2 (List.cons.inj h).1⟩

theorem enumCast_enumName {keys : List ThingPropertyKey} {name : Name} {property : ThingPropertyKey}
    (h : enumCast keys name = some property) : property.enumName = name := by
  have hfound := List.find?_some h
  exact of_decide_eq_true hfound

/-! ### The answer -/

/- A text does not begin like an array, so that a refusal is an exception. -/
theorem decodeArchivedData_refusal (text : Name) :
    decodeArchivedData (bodyBytes (.text ("invalid ".toList ++ text))) =
      .error (.formatException "Expected array") := by
  obtain ⟨rest, hrest⟩ : ∃ rest, bodyBytes (.text ("invalid ".toList ++ text)) = 105 :: rest :=
    ⟨_, rfl⟩
  have hbyte : index (105 :: rest : Bytes) 0 = .ok 105 := rfl
  have hmajor : (105 : UInt8).toNat >>> 5 ≠ 4 := by decide
  rw [hrest, decodeArchivedData, decodeArrays, List.length_cons, readArrays,
    if_pos (by rw [List.length_cons]; exact Nat.succ_pos _)]
  dsimp only
  rw [hbyte, ok_bind, if_pos hmajor]
  rfl

section Request
variable {lib : CborLibrary} {keys : List ThingPropertyKey} {thingId propertyId : Name}
  {date : YearMonthDay} (ht : Segment thingId) (hp : Segment propertyId) (hok : date.ok = true)
include ht hp hok

/- A known property on a date of four digits gets what the database has. -/
theorem fetchArchivedData_known (s : Session) {property : ThingPropertyKey}
    (hkey : enumCast keys propertyId = some property) (hyear : 0 ≤ date.year ∧ date.year < 10000) :
    fetchArchivedData lib keys s thingId propertyId date =
      (Iotic.Database.archivedData lib s.now s.db thingId property date.sysDays 5).map fun r =>
        (decodeArchivedData r.1, { s with db := r.2 }) := by
  have hdate := parseYmd_formatted hok
  rw [if_pos hyear] at hdate
  have hresolution : fromChars [] 5 = 5 := rfl
  unfold fetchArchivedData
  rw [archiveRoute_buildUri ht hp date, Option.bind_some]
  simp only [getDatabase, hkey, hdate, hok, if_true, day, resolution, hresolution, Option.map_map]
  rfl

/- Anything else is refused, and leaves the database alone. -/
theorem fetchArchivedData_refused (s : Session)
    (h : enumCast keys propertyId = none ∨ ¬ (0 ≤ date.year ∧ date.year < 10000)) :
    fetchArchivedData lib keys s thingId propertyId date =
      some (.error (.formatException "Expected array"), s) := by
  obtain ⟨text, htext⟩ : ∃ text, getDatabase lib keys s.now s.db
      ⟨thingId, propertyId, formatted date, []⟩ = some (.text ("invalid ".toList ++ text), s.db) := by
    unfold getDatabase
    dsimp only
    cases hkey : enumCast keys propertyId with
    | none => exact ⟨_, rfl⟩
    | some property =>
      have hyear := h.resolve_left (by rw [hkey]; exact Option.some_ne_none _)
      have hdate := parseYmd_formatted hok
      rw [if_neg hyear] at hdate
      dsimp only
      rw [hdate, if_neg (by decide)]
      exact ⟨_, rfl⟩
  unfold fetchArchivedData
  rw [archiveRoute_buildUri ht hp date, Option.bind_some, htext, Option.map_some,
    decodeArchivedData_refusal]

end Request

/-- Every request for a day of the calendar, with a thing and a property that are segments
of a path, reaches the route as it was meant. It is answered from the database exactly for
a property that is known and a year of four digits; otherwise it is refused, and the
refusal, which has the status of an answer, is an exception and never data. -/
theorem fetchArchivedData_answered (lib : CborLibrary) (keys : List ThingPropertyKey) (s : Session)
    (thingId propertyId : Name) (date : YearMonthDay) (ht : Segment thingId) (hp : Segment propertyId)
    (hok : date.ok = true) :
    (∀ property, enumCast keys propertyId = some property → 0 ≤ date.year ∧ date.year < 10000 →
      fetchArchivedData lib keys s thingId propertyId date =
        (Iotic.Database.archivedData lib s.now s.db thingId property date.sysDays 5).map fun r =>
          (decodeArchivedData r.1, { s with db := r.2 })) ∧
    ((enumCast keys propertyId = none ∨ ¬ (0 ≤ date.year ∧ date.year < 10000)) →
      fetchArchivedData lib keys s thingId propertyId date =
        some (.error (.formatException "Expected array"), s)) :=
  ⟨fun _ hkey hyear => fetchArchivedData_known ht hp hok s hkey hyear,
    fetchArchivedData_refused ht hp hok s⟩

/- In the year 10000 nothing is read any more. -/
theorem fetchArchivedData_answered_tenThousand :
    fetchArchivedData .shortest [.power] ⟨0, DatabasePrivate.fresh⟩ "relay".toList "power".toList
      ⟨10000, 1, 1⟩ = some (.error (.formatException "Expected array"), ⟨0, DatabasePrivate.fresh⟩) :=
  (fetchArchivedData_answered .shortest [.power] ⟨0, DatabasePrivate.fresh⟩ "relay".toList
    "power".toList ⟨10000, 1, 1⟩ (by decide) (by decide) (by decide)).2 (Or.inr (by decide))

end Iotic.Webapp
