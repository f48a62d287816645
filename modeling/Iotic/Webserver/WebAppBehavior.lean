import Iotic.Lib.JsonText
import Iotic.Webserver.SiteHistory

/-!
# Messages to a new client (WebAppBehavior.cpp)

What the daemon sends when a web socket is opened: an object of objects, as JSON text.
The JSON libraries of both ends are third-party code: a parameter, with what is relied
on as `Faithful`.
-/

namespace Iotic.Webserver
open ByteString

/- A number or an array of numbers. -/
abbrev PropertyValue := ℤ ⊕ List ℤ

abbrev Message := List (Bytes × List (Bytes × PropertyValue))

def messageFormat : JsonText.Format Message := JsonText.Format.int.numberOr.object.object

structure JsonTextLibrary where
  dump : Message → Bytes
  jsonDecode : Bytes → Option Message

/- What one end writes the other reads. -/
def JsonTextLibrary.Faithful (lib : JsonTextLibrary) : Prop :=
  ∀ message, messageFormat.Writable message → lib.jsonDecode (lib.dump message) = some message

def JsonTextLibrary.compact : JsonTextLibrary := ⟨messageFormat.write, messageFormat.parse⟩

theorem JsonTextLibrary.compact_faithful : JsonTextLibrary.compact.Faithful :=
  fun _ h => messageFormat.parse_write h

namespace WebAppBehavior

/- The loop from the last entry on, until 121 are collected: timestamps, powers of the
panels and of the grid, each put in at the front. -/
def collect : List Properties → List ℤ × List ℤ × List ℤ → List ℤ × List ℤ × List ℤ
  | [], collected => collected
  | it :: rest, (timestamps, pvPower, gridPower) =>
    if timestamps.length ≤ 120 then
      collect rest ((it.ts.toNat : ℤ) :: timestamps, it.pvPower.toInt :: pvPower,
        it.gridPower.toInt :: gridPower)
    else (timestamps, pvPower, gridPower)

def siteMessage (timestamps pvPower gridPower : List ℤ) : Message :=
  let siteProperties := setMember (enumToString "timestamp") (.inr timestamps) []
  let siteProperties := setMember (enumToString "pv_power") (.inr pvPower) siteProperties
  let siteProperties := setMember (enumToString "grid_power") (.inr gridPower) siteProperties
  setMember (enumToString "site") siteProperties []

def serializeSiteHistory (lib : JsonTextLibrary) (siteHistory : List Properties) : Bytes :=
  let (timestamps, pvPower, gridPower) := collect siteHistory.reverse ([], [], [])
  lib.dump (siteMessage timestamps pvPower gridPower)

def serializeSiteProperties (lib : JsonTextLibrary) (thingInterval : ℤ) : Bytes :=
  lib.dump (setMember (enumToString "site")
    (setMember (enumToString "thing_interval") (.inl thingInterval) []) [])

/-! ### What is sent -/

/- At most the last 121 entries. -/
def recent (siteHistory : List Properties) : List Properties :=
  siteHistory.drop (siteHistory.length - 121)

theorem length_recent (siteHistory : List Properties) :
    (recent siteHistory).length = min siteHistory.length 121 := by
  rw [recent, List.length_drop]
  omega

def timestamps (entries : List Properties) : List ℤ := entries.map fun e => (e.ts.toNat : ℤ)

def pvPowers (entries : List Properties) : List ℤ := entries.map fun e => e.pvPower.toInt

def gridPowers (entries : List Properties) : List ℤ := entries.map fun e => e.gridPower.toInt

/- Entries already collected stand behind the ones to come. -/
theorem collect_eq (rest : List Properties) {entries : List Properties}
    (h : entries.length ≤ 121) :
    let all := (rest.take (121 - entries.length)).reverse ++ entries
    collect rest (timestamps entries, pvPowers entries, gridPowers entries) =
      (timestamps all, pvPowers all, gridPowers all) := by
  induction rest generalizing entries with
  | nil => simp [collect]
  | cons it rest ih =>
    have hlength : (timestamps entries).length = entries.length := List.length_map _
    rw [collect]
    by_cases hmore : entries.length ≤ 120
    · have hnext : (it :: entries).length ≤ 121 := Nat.succ_le_succ hmore
      have htake : (it :: rest).take (121 - entries.length) =
          it :: rest.take (121 - (it :: entries).length) := by
        rw [show 121 - entries.length = 121 - (it :: entries).length + 1 by
          rw [List.length_cons]
          omega]
        rfl
      rw [if_pos (by rw [hlength]; exact hmore), htake, List.reverse_cons, List.append_assoc,
        List.singleton_append]
      exact ih hnext
    · have hfull : 121 - entries.length = 0 := by omega
      rw [if_neg (by rw [hlength]; exact hmore), hfull]
      rfl

theorem serializeSiteHistory_eq (lib : JsonTextLibrary) (siteHistory : List Properties) :
    serializeSiteHistory lib siteHistory = lib.dump (siteMessage (timestamps (recent siteHistory))
      (pvPowers (recent siteHistory)) (gridPowers (recent siteHistory))) := by
  have hnone : ([] : List Properties).length ≤ 121 := Nat.zero_le 121
  have hcollect := collect_eq siteHistory.reverse hnone
  have hrecent : (siteHistory.reverse.take 121).reverse = recent siteHistory := by
    rw [List.take_reverse, List.reverse_reverse, recent]
  simp only [List.length_nil, Nat.sub_zero, List.append_nil, hrecent] at hcollect
  have hstart : collect siteHistory.reverse ([], [], []) = _ := hcollect
  rw [serializeSiteHistory, hstart]

/- The members in the order of their names. -/
theorem siteMessage_eq (timestamps pvPower gridPower : List ℤ) :
    siteMessage timestamps pvPower gridPower = [(enumToString "site",
      [(enumToString "grid_power", .inr gridPower), (enumToString "pv_power", .inr pvPower),
        (enumToString "timestamp", .inr timestamps)])] := rfl

theorem writable_siteMessage (timestamps pvPower gridPower : List ℤ) :
    messageFormat.Writable (siteMessage timestamps pvPower gridPower) := by
  have hnames : ∀ name ∈ ["site", "grid_power", "pv_power", "timestamp"],
      JsonText.Format.Plain (enumToString name) := by decide
  have hnumbers : ∀ values : List ℤ, JsonText.Format.int.numberOr.Writable (.inr values) :=
    fun _ _ _ => trivial
  rw [siteMessage_eq]
  refine List.forall_mem_singleton.mpr ⟨hnames "site" (by simp), ?_⟩
  exact List.forall_mem_cons.mpr ⟨⟨hnames "grid_power" (by simp), hnumbers gridPower⟩,
    List.forall_mem_cons.mpr ⟨⟨hnames "pv_power" (by simp), hnumbers pvPower⟩,
      List.forall_mem_singleton.mpr ⟨hnames "timestamp" (by simp), hnumbers timestamps⟩⟩⟩

end WebAppBehavior
end Iotic.Webserver
