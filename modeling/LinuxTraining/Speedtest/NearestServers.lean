import LinuxTraining.Library.Ranking
import LinuxTraining.Speedtest.BestServer
import Mathlib.Algebra.Group.Defs
import Mathlib.Data.List.GetD
import Mathlib.Logic.Function.Basic

/-!
The table of `get_nearest_server`: the servers of the list that are nearest to the client,
as they are read one after the other. An empty url marks a free slot. Coordinates and
distances are values of any type, the distance being what `calcDistance` gives.
-/
namespace LinuxTraining.Speedtest
open Ranking

variable {C D : Type*}

/-- The fields of `server_data_t` that `get_nearest_server` fills; it leaves the others
as they were cleared. -/
structure NearServer (C D : Type*) where
  url : Text
  latitude : C
  longitude : C
  name : Text
  country : Text
  distance : D

abbrev NearServers (C D : Type*) := Nat → NearServer C D

section Loops
variable [Zero C] [Zero D]

def clearedServer : NearServer C D := ⟨[], 0, 0, [], [], 0⟩

/-- The loop over `j`: down to the slot after `i`, each slot takes what the one before it
holds. -/
def shiftServers (nearest : NearServers C D) (i : Nat) : (j : Nat) → NearServers C D
  | 0 => nearest
  | j + 1 =>
      if i < j + 1 then shiftServers (Function.update nearest (j + 1) (nearest j)) i j
      else nearest

variable [LinearOrder D]

/-- The loop over `i`, for the turns that are left of it. -/
def insertLoop (new : NearServer C D) (nearest : NearServers C D) :
    (turns i : Nat) → NearServers C D
  | 0, _ => nearest
  | turns + 1, i =>
      if (nearest i).url = [] then Function.update nearest i new
      else if new.distance ≤ (nearest i).distance then
        let nearest := Function.update nearest (nearestServersNum - 1) clearedServer
        let nearest := shiftServers nearest i (nearestServersNum - 1)
        Function.update nearest i new
      else insertLoop new nearest turns (i + 1)

def insertServer (nearest : NearServers C D) (new : NearServer C D) : NearServers C D :=
  insertLoop new nearest nearestServersNum 0

def nearestServers (servers : List (NearServer C D)) : NearServers C D :=
  servers.foldl insertServer fun _ => clearedServer

end Loops

theorem shiftServers_apply (nearest : NearServers C D) (i j k : Nat) :
    shiftServers nearest i j k = if i < k ∧ k ≤ j then nearest (k - 1) else nearest k := by
  induction j generalizing nearest with
  | zero => rw [shiftServers, if_neg (by omega)]
  | succ j ih =>
      by_cases hi : i < j + 1
      · rw [shiftServers, if_pos hi, ih]
        by_cases hk : k = j + 1
        · rw [hk, if_neg (by omega), if_pos ⟨hi, Nat.le_refl _⟩, Function.update_self,
            Nat.add_sub_cancel]
        · rw [Function.update_of_ne hk]
          by_cases hin : i < k ∧ k ≤ j
          · rw [if_pos hin, if_pos ⟨hin.1, by omega⟩, Function.update_of_ne (by omega)]
          · rw [if_neg hin, if_neg (by omega)]
      · rw [shiftServers, if_neg hi, if_neg (by omega)]

variable [Zero C] [Zero D] [LinearOrder D]

/-- The slots hold the servers of the list, one after the other from the first slot on. -/
structure Holds (nearest : NearServers C D) (servers : List (NearServer C D)) : Prop where
  occupied : ∀ server ∈ servers, server.url ≠ []
  slots : ∀ k, k < nearestServersNum → nearest k = servers.getD k clearedServer

/-- Where the loop has come to slot `i`, the servers before it are nearer than the new
one. -/
theorem insertLoop_slots {new : NearServer C D} {nearest : NearServers C D}
    {before after : List (NearServer C D)} {turns i k : Nat}
    (hoccupied : ∀ server ∈ after, server.url ≠ [])
    (hslots : ∀ k, k < nearestServersNum →
      nearest k = (before ++ after).getD k clearedServer)
    (hi : before.length = i) (hturns : turns + i = nearestServersNum)
    (hk : k < nearestServersNum) :
    insertLoop new nearest turns i k =
      (before ++ place NearServer.distance new after).getD k clearedServer := by
  induction turns generalizing before after i with
  | zero =>
      rw [insertLoop, hslots k hk, List.getD_append _ _ _ _ (by omega),
        List.getD_append _ _ _ _ (by omega)]
  | succ turns ih =>
      have hnow := hslots i (by omega)
      rw [List.getD_append_right _ _ _ _ (by omega), hi, Nat.sub_self] at hnow
      cases after with
      | nil =>
          have hfree : (nearest i).url = [] := by
            rw [hnow]
            rfl
          rw [insertLoop, if_pos hfree]
          by_cases hki : k = i
          · rw [hki, Function.update_self, List.getD_append_right _ _ _ _ (by omega), hi,
              Nat.sub_self]
            rfl
          · rw [Function.update_of_ne hki, hslots k hk, List.append_nil]
            by_cases hlow : k < i
            · rw [List.getD_append _ _ _ _ (by omega)]
            · rw [List.getD_eq_default _ _ (by omega), List.getD_eq_default]
              simp [place]
              omega
      | cons server after =>
          rw [List.getD_cons_zero] at hnow
          have htaken : (nearest i).url ≠ [] := by
            rw [hnow]
            exact hoccupied server List.mem_cons_self
          rw [insertLoop, if_neg htaken, hnow]
          by_cases hle : new.distance ≤ server.distance
          · rw [if_pos hle, place_of_le _ _ hle]
            by_cases hki : k = i
            · rw [hki, Function.update_self, List.getD_append_right _ _ _ _ (by omega), hi,
                Nat.sub_self, List.getD_cons_zero]
            · rw [Function.update_of_ne hki, shiftServers_apply]
              by_cases hlow : k < i
              · rw [if_neg (by omega), Function.update_of_ne (by omega), hslots k hk,
                  List.getD_append _ _ _ _ (by omega), List.getD_append _ _ _ _ (by omega)]
              · rw [if_pos ⟨by omega, by omega⟩, Function.update_of_ne (by omega),
                  hslots (k - 1) (by omega), List.getD_append_right _ _ _ _ (by omega),
                  List.getD_append_right _ _ _ _ (by omega)]
                have hnext : k - before.length = k - 1 - before.length + 1 := by omega
                rw [hnext, List.getD_cons_succ]
          · have hlist : before ++ server :: place NearServer.distance new after =
                (before ++ [server]) ++ place NearServer.distance new after := by simp
            rw [if_neg hle, place_of_lt _ _ (not_le.mp hle), hlist]
            refine ih (fun s hs => hoccupied s (List.mem_cons_of_mem _ hs)) ?_ ?_ (by omega)
            · intro k hk
              rw [hslots k hk]
              simp
            · rw [List.length_append, List.length_singleton, hi]

/-- One more server: the slots hold the first ones of the ranking with it. -/
theorem Holds.insert {nearest : NearServers C D} {servers : List (NearServer C D)}
    {new : NearServer C D} (h : Holds nearest servers) (hurl : new.url ≠ []) :
    Holds (insertServer nearest new) (place NearServer.distance new servers) where
  occupied := by
    intro server hserver
    cases (List.mem_orderedInsert _).mp hserver with
    | inl hsame =>
        subst hsame
        exact hurl
    | inr hserver =>
        exact h.occupied server hserver
  slots := by
    intro k hk
    have hnone : ∀ k, k < nearestServersNum → nearest k = ([] ++ servers).getD k clearedServer :=
      h.slots
    exact insertLoop_slots h.occupied hnone rfl rfl hk

theorem Holds.foldl {nearest : NearServers C D} {servers : List (NearServer C D)}
    (news : List (NearServer C D)) (h : Holds nearest servers)
    (hurls : ∀ new ∈ news, new.url ≠ []) :
    Holds (news.foldl insertServer nearest)
      (news.foldl (fun servers new => place NearServer.distance new servers) servers) := by
  induction news generalizing nearest servers with
  | nil => exact h
  | cons new news ih =>
      exact ih (h.insert (hurls new List.mem_cons_self))
        fun s hs => hurls s (List.mem_cons_of_mem _ hs)

structure ScannedServer where
  url : Text
  lat : Text
  lon : Text
  name : Text
  country : Text
  deriving DecidableEq

def newServer (atof : Text → C) (calcDistance : C → C → C → C → D) (lat_c lon_c : C)
    (scanned : ScannedServer) : NearServer C D :=
  let lat_s := atof scanned.lat
  let lon_s := atof scanned.lon
  ⟨scanned.url, lat_s, lon_s, scanned.name, scanned.country,
    calcDistance lat_c lon_c lat_s lon_s⟩

/-- The table ends with the nearest servers of the list, in order of their distances; of
two that are equally far the one read later comes first. -/
theorem nearest_servers_ranked (atof : Text → C) (calcDistance : C → C → C → C → D)
    (lat_c lon_c : C) (list : List ScannedServer) (hurls : ∀ s ∈ list, s.url ≠ []) :
    let servers := list.map (newServer atof calcDistance lat_c lon_c)
    let count := min servers.length nearestServersNum
    ∃ ranking, Ranked NearServer.distance servers ranking ∧
      (List.range count).map (nearestServers servers) = (ranking.take count).map Prod.fst ∧
      ∀ k, k < nearestServersNum →
        ((nearestServers servers k).url ≠ [] ↔ k < count) ∧
        (count ≤ k → nearestServers servers k = clearedServer) := by
  intro servers count
  have hstart : Holds (fun _ => (clearedServer : NearServer C D)) [] := ⟨by simp, by simp⟩
  have hholds := hstart.foldl servers fun new hnew => by
    obtain ⟨s, hs, rfl⟩ := List.mem_map.mp hnew
    exact hurls s hs
  obtain ⟨ranking, hranked, hmap⟩ := ranked_foldl NearServer.distance servers
  rw [← hmap] at hholds
  have hlength : (ranking.map Prod.fst).length = servers.length := by
    rw [List.length_map, hranked.perm.length_eq, List.length_zipIdx]
  refine ⟨ranking, hranked, ?_, fun k hk => ⟨?_, fun hfree => ?_⟩⟩
  · refine List.ext_getElem ?_ fun k hk _ => ?_
    · simp only [List.length_map] at hlength ⊢
      simp only [List.length_range, List.length_take, hlength]
      omega
    · have hcount : k < count := by simpa using hk
      rw [List.getElem_map, List.getElem_range, nearestServers, hholds.slots k (by omega),
        List.getD_eq_getElem _ _ (by omega), List.getElem_map, List.getElem_map,
        List.getElem_take]
  · rw [nearestServers, hholds.slots k hk]
    constructor
    · intro hurl
      by_contra hfree
      rw [List.getD_eq_default _ _ (by omega)] at hurl
      exact hurl rfl
    · intro hcount
      rw [List.getD_eq_getElem _ _ (by omega)]
      exact hholds.occupied _ (List.getElem_mem _)
  · rw [nearestServers, hholds.slots k hk, List.getD_eq_default _ _ (by omega)]

def sevenServers : List ScannedServer :=
  [⟨['a'], ['1', '2', '3'], [], [], []⟩, ⟨['b'], ['1'], [], [], []⟩,
    ⟨['c'], ['1', '2', '3', '4', '5', '6'], [], [], []⟩, ⟨['d'], ['1', '2'], [], [], []⟩,
    ⟨['e'], ['1', '2', '3', '4'], [], [], []⟩, ⟨['f'], ['1'], [], [], []⟩,
    ⟨['g'], [], [], [], []⟩]

theorem nearest_servers_ranked_seven :
    let servers := sevenServers.map (newServer List.length (fun _ _ lat _ => lat) 0 0)
    (∃ ranking, Ranked NearServer.distance servers ranking ∧
      (List.range 5).map (nearestServers servers) = (ranking.take 5).map Prod.fst) ∧
    (List.range 5).map (fun k => (nearestServers servers k).url) =
      [['g'], ['f'], ['b'], ['d'], ['a']] := by
  obtain ⟨ranking, hranked, hslots, -⟩ := nearest_servers_ranked List.length
    (fun _ _ lat _ => lat) 0 0 sevenServers (by decide)
  exact ⟨⟨ranking, hranked, hslots⟩, by decide +kernel⟩

end LinuxTraining.Speedtest
