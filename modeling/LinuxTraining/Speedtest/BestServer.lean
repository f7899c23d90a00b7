import LinuxTraining.Speedtest.ServerUrl
import Mathlib.Data.Fin.Basic

/-!
`get_best_server`: the probe of every slot of the server list, and the choice of
the slot with the lowest latency. The array `line` is shared by the probes: an
empty file leaves the line of an earlier one in it.
-/
namespace LinuxTraining.Speedtest
open CString Stdio

abbrev nearestServersNum : Nat := 5

instance : NeZero nearestServersNum := ⟨by decide⟩

structure SockAddr where
  ip : Nat
  port : Nat
  deriving DecidableEq

/-- The fields of `server_data_t` that the probe and the two phases use. -/
structure ServerData where
  url : Text
  latency : Int
  domain_name : Text
  servinfo : SockAddr

abbrev Servers := Fin nearestServersNum → ServerData

/-- What one probe meets: the address that `get_ipv4_addr` finds, the file that
`get_http_file` leaves, and the time between the two clock readings. -/
structure ProbeOutcome where
  resolved : Option SockAddr
  file : Option Text
  elapsed : Int

abbrev Outcomes := Fin nearestServersNum → ProbeOutcome

/-- `line` after `fgets`, which leaves it alone at the end of the file. -/
def readLine (line : Text) (file : Text) : Text :=
  if (fgets 255 file).1 = [] then line else (fgets 255 file).1

def lineBefore (outcomes : Outcomes) : Nat → Text
  | 0 => []
  | i + 1 =>
      if h : i < nearestServersNum then
        match (outcomes ⟨i, h⟩).file with
        | none => lineBefore outcomes i
        | some file => readLine (lineBefore outcomes i) file
      else lineBefore outcomes i

def probeLatency (line : Text) (outcome : ProbeOutcome) : Int :=
  match outcome.file with
  | none => -1
  | some file => if "test=test".toList <+: readLine line file then outcome.elapsed else -1

/-- The server list after the first loop of `get_best_server`. -/
def probeServers (servers : Servers) (outcomes : Outcomes) : Servers := fun i =>
  { servers i with
    domain_name := cutPort (domainName (latencyUrl (servers i).url))
    servinfo := (outcomes i).resolved.getD (servers i).servinfo
    latency := probeLatency (lineBefore outcomes i) (outcomes i) }

/-- The second loop of `get_best_server`, from slot `i` on. -/
def selectLoop (servers : Servers) (i : Nat) (best_index latency : Int) : Int :=
  if h : i < nearestServersNum then
    if i = 0 then selectLoop servers (i + 1) i (servers ⟨i, h⟩).latency
    else if (servers ⟨i, h⟩).latency < latency ∧ (servers ⟨i, h⟩).latency ≠ -1 then
      selectLoop servers (i + 1) i (servers ⟨i, h⟩).latency
    else selectLoop servers (i + 1) best_index latency
  else best_index
termination_by nearestServersNum - i

/-- `get_best_server`: the server list that it leaves and the index that it returns;
`latency` has no value before the first slot. -/
def getBestServer (servers : Servers) (outcomes : Outcomes) : Servers × Int :=
  (probeServers servers outcomes, selectLoop (probeServers servers outcomes) 0 (-1) 0)

/-- A slot that the loop may take: the first one whatever its latency, another one when
its probe succeeded. -/
def Eligible (latency : Fin nearestServersNum → Int) (i : Fin nearestServersNum) : Prop :=
  i = 0 ∨ latency i ≠ -1

/-- The slot that the loop settles on among those below `n`: the first one of those
with the lowest latency. -/
structure SelectedBelow (latency : Fin nearestServersNum → Int) (n : Nat)
    (b : Fin nearestServersNum) : Prop where
  below : b.val < n
  eligible : Eligible latency b
  lowest : ∀ j : Fin nearestServersNum, j.val < n → Eligible latency j → latency b ≤ latency j
  first : ∀ j : Fin nearestServersNum, j < b → Eligible latency j → latency b < latency j

abbrev Selected (latency : Fin nearestServersNum → Int) (b : Fin nearestServersNum) : Prop :=
  SelectedBelow latency nearestServersNum b

variable {latency : Fin nearestServersNum → Int} {n : Nat} {b : Fin nearestServersNum}

theorem Selected.unique {b' : Fin nearestServersNum} (h : Selected latency b)
    (h' : Selected latency b') : b = b' := by
  have hle := h.lowest b' b'.isLt h'.eligible
  have hge := h'.lowest b b.isLt h.eligible
  rcases Nat.lt_trichotomy b.val b'.val with hlt | heq | hlt
  · have := h'.first b hlt h.eligible
    omega
  · exact Fin.ext heq
  · have := h.first b' hlt h'.eligible
    omega

theorem SelectedBelow.keep (h : SelectedBelow latency n b) {i : Fin nearestServersNum}
    (hi : i.val = n) (hworse : ¬ (latency i < latency b ∧ latency i ≠ -1)) (hn : 0 < n) :
    SelectedBelow latency (n + 1) b := by
  refine ⟨Nat.lt_succ_of_lt h.below, h.eligible, ?_, h.first⟩
  intro j hj heligible
  by_cases hlt : j.val < n
  · exact h.lowest j hlt heligible
  · have hij : j = i := Fin.ext (by omega)
    subst hij
    cases heligible with
    | inl hzero =>
        rw [hzero] at hi
        simp at hi
        omega
    | inr hne =>
        omega

theorem SelectedBelow.take (h : SelectedBelow latency n b) {i : Fin nearestServersNum}
    (hi : i.val = n) (hbetter : latency i < latency b ∧ latency i ≠ -1) :
    SelectedBelow latency (n + 1) i := by
  refine ⟨by omega, .inr hbetter.2, ?_, ?_⟩
  · intro j hj heligible
    by_cases hlt : j.val < n
    · have := h.lowest j hlt heligible
      omega
    · have hij : j = i := Fin.ext (by omega)
      rw [hij]
  · intro j hj heligible
    have := h.lowest j (by omega) heligible
    omega

theorem selectLoop_selected {servers : Servers} (hpos : 0 < n)
    (h : SelectedBelow (fun i => (servers i).latency) n b) :
    ∃ b' : Fin nearestServersNum, selectLoop servers n (b.val : Nat) (servers b).latency =
      (b'.val : Nat) ∧ Selected (fun i => (servers i).latency) b' := by
  induction hk : nearestServersNum - n generalizing n b with
  | zero =>
      have hdone : ¬ n < nearestServersNum := by omega
      rw [selectLoop, dif_neg hdone]
      refine ⟨b, rfl, b.isLt, h.eligible, fun j _ => h.lowest j ?_, h.first⟩
      have := j.isLt
      omega
  | succ k ih =>
      have hlt : n < nearestServersNum := by omega
      rw [selectLoop, dif_pos hlt, if_neg (by omega)]
      by_cases hbetter : (servers ⟨n, hlt⟩).latency < (servers b).latency ∧
          (servers ⟨n, hlt⟩).latency ≠ -1
      · rw [if_pos hbetter]
        exact ih (Nat.succ_pos n) (h.take (i := ⟨n, hlt⟩) rfl hbetter) (by omega)
      · rw [if_neg hbetter]
        exact ih (Nat.succ_pos n) (h.keep (i := ⟨n, hlt⟩) rfl hbetter hpos) (by omega)

/-- The loop takes the first slot before it compares any. -/
theorem selectLoop_first (servers : Servers) :
    ∃ b : Fin nearestServersNum, selectLoop servers 0 (-1) 0 = (b.val : Nat) ∧
      Selected (fun i => (servers i).latency) b := by
  have hfirst : SelectedBelow (fun i => (servers i).latency) 1 0 := by
    refine ⟨by decide, .inl rfl, ?_, ?_⟩
    · intro j hj _
      have hzero : j = 0 := Fin.ext (by simpa using hj)
      rw [hzero]
    · intro j hj
      exact absurd hj (Fin.not_lt_zero j)
  obtain ⟨b, hb, hselected⟩ := selectLoop_selected Nat.one_pos hfirst
  refine ⟨b, ?_, hselected⟩
  rw [selectLoop, dif_pos (by decide), if_pos rfl]
  exact hb

/-- The index that `get_best_server` returns is never -1. -/
theorem getBestServer_selected (servers : Servers) (outcomes : Outcomes) :
    ∃ b : Fin nearestServersNum, (getBestServer servers outcomes).2 = (b.val : Nat) ∧
      Selected (fun i => (probeServers servers outcomes i).latency) b :=
  selectLoop_first (probeServers servers outcomes)

end LinuxTraining.Speedtest
