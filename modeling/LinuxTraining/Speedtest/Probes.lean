import LinuxTraining.Speedtest.BestServer

/-!
Failed probes in `get_best_server`. The choice of the slot with the lowest latency knows
-1 for a probe that failed, save in the first slot. The probes themselves share the array
`line`, the two clock readings and the file, and leave them to each other.
-/
namespace LinuxTraining.Speedtest
open CString Stdio

/-- The index of a slot with the lowest latency among the probes that succeeded, or -1 if
none did. -/
def SelectsLowest (latency : Fin nearestServersNum → Int) (best_index : Int) : Prop :=
  (∀ i, latency i = -1) ∧ best_index = -1 ∨
    ∃ b : Fin nearestServersNum, best_index = (b.val : Nat) ∧ latency b ≠ -1 ∧
      ∀ i, latency i ≠ -1 → latency b ≤ latency i

/-- The slot of the server that `run_proc` tests. -/
def testedSlot (best_server_index : Int) : Option (Fin nearestServersNum) :=
  if best_server_index ≠ -1 then some 1 else none

def bestIndex (servers : Servers) : Int := selectLoop servers 0 (-1) 0

theorem bestIndex_lowest_iff {servers : Servers}
    (hmeasured : ∀ i, (servers i).latency = -1 ∨ 0 ≤ (servers i).latency) :
    SelectsLowest (fun i => (servers i).latency) (bestIndex servers) ↔
      (servers 0).latency ≠ -1 := by
  obtain ⟨b, hb, hselected⟩ := selectLoop_first servers
  constructor
  · intro hlowest hfailed
    -- the failed first slot is lower than all others, and is kept
    have hzero := hselected.lowest 0 (by decide) (.inl rfl)
    have hfirst : b = 0 := by
      cases hselected.eligible with
      | inl h => exact h
      | inr hne =>
          have hmeasuredb := hmeasured b
          simp only at hzero hne
          omega
    cases hlowest with
    | inl hnone =>
        rw [bestIndex, hb] at hnone
        omega
    | inr hsome =>
        obtain ⟨b', hb', hsucceeded, -⟩ := hsome
        rw [bestIndex, hb] at hb'
        have hsame : b' = b := Fin.ext (by omega)
        rw [hsame, hfirst] at hsucceeded
        exact hsucceeded hfailed
  · intro hsucceeded
    have heligible : ∀ i, Eligible (fun i => (servers i).latency) i ↔
        (servers i).latency ≠ -1 := by
      intro i
      constructor
      · rintro (rfl | hne)
        · exact hsucceeded
        · exact hne
      · exact .inr
    exact .inr ⟨b, hb, (heligible b).mp hselected.eligible,
      fun i hi => hselected.lowest i i.isLt ((heligible i).mpr hi)⟩

/-- The choice is right exactly if the first probe succeeded, and the server tested has
answered exactly if the second one did, too. -/
theorem best_index_lowest_iff (servers : Servers)
    (hmeasured : ∀ i, (servers i).latency = -1 ∨ 0 ≤ (servers i).latency) :
    (SelectsLowest (fun i => (servers i).latency) (bestIndex servers) ↔
      (servers 0).latency ≠ -1) ∧
    (SelectsLowest (fun i => (servers i).latency) (bestIndex servers) ∧
        (∀ i ∈ testedSlot (bestIndex servers), (servers i).latency ≠ -1) ↔
      (servers 0).latency ≠ -1 ∧ (servers 1).latency ≠ -1) := by
  have htested : testedSlot (bestIndex servers) = some 1 := by
    obtain ⟨b, hb, -⟩ := selectLoop_first servers
    rw [testedSlot, bestIndex, hb, if_pos (by omega)]
  rw [bestIndex_lowest_iff hmeasured, htested]
  simp

def serversWith (latency : Fin nearestServersNum → Int) : Servers := fun i =>
  ⟨[], latency i, [], ⟨0, 0⟩⟩

theorem best_index_lowest_later :
    SelectsLowest (fun i => if i = 2 then -1 else 9 - i.val)
      (bestIndex (serversWith fun i => if i = 2 then -1 else 9 - i.val)) :=
  (best_index_lowest_iff (serversWith fun i => if i = 2 then -1 else 9 - i.val)
    (by decide)).1.mpr (by decide)

/-- A server that cannot be reached is the best one, be it the first or all of them. -/
theorem failed_probe_selected :
    ¬ SelectsLowest (fun i => if i = 0 then -1 else 5)
      (bestIndex (serversWith fun i => if i = 0 then -1 else 5)) ∧
    bestIndex (serversWith fun _ => -1) ≠ -1 := by
  refine ⟨fun hlowest => ?_, fun hnone => ?_⟩
  · exact (@bestIndex_lowest_iff (serversWith fun i => if i = 0 then -1 else 5)
      (by decide)).mp hlowest rfl
  · exact (@bestIndex_lowest_iff (serversWith fun _ => -1) (by decide)).mp
      (.inl ⟨fun _ => rfl, hnone⟩) rfl

def testFile : Text := "test=test".toList

/-- What one turn of the first loop leaves to the next: the array `line`, the time between
the two clock readings, and what is in the file that a probe writes. -/
structure ProbeState where
  line : Text
  elapsed : Int
  file : Option Text

/-- The file that a probe writes itself; without an address it is not even sent. -/
def ProbeOutcome.ownFile (outcome : ProbeOutcome) : Option Text :=
  if outcome.resolved.isSome then outcome.file else none

/-- The time between the clock readings after a probe, which only a probe with an address
makes. -/
def ProbeOutcome.clock (outcome : ProbeOutcome) (elapsed : Int) : Int :=
  if outcome.resolved.isSome then outcome.elapsed else elapsed

/-- One turn: the latency of its slot and what it leaves. The file is removed when it has
been read. -/
def probeSlot (outcome : ProbeOutcome) (s : ProbeState) : Int × ProbeState :=
  match outcome.ownFile.or s.file with
  | none => (-1, ⟨s.line, outcome.clock s.elapsed, none⟩)
  | some file =>
      (if testFile <+: readLine s.line file then outcome.clock s.elapsed else -1,
        ⟨readLine s.line file, outcome.clock s.elapsed, none⟩)

/-- Before the first turn `line` is empty; the file may be left from an earlier run, and
the clock readings have no value yet. -/
def probeState (elapsed : Int) (leftover : Option Text) (outcomes : Outcomes) :
    Nat → ProbeState
  | 0 => ⟨[], elapsed, leftover⟩
  | i + 1 =>
      if h : i < nearestServersNum then
        (probeSlot (outcomes ⟨i, h⟩) (probeState elapsed leftover outcomes i)).2
      else probeState elapsed leftover outcomes i

def slotLatency (elapsed : Int) (leftover : Option Text) (outcomes : Outcomes)
    (i : Fin nearestServersNum) : Int :=
  (probeSlot (outcomes i) (probeState elapsed leftover outcomes i)).1

def OwnAnswer (elapsed : Int) (leftover : Option Text) (outcomes : Outcomes) : Prop :=
  ∀ i, slotLatency elapsed leftover outcomes i ≠ -1 →
    ∃ file, (outcomes i).ownFile = some file ∧ testFile <+: file

/-- No slot depends on the probes of the others. -/
def SlotsIndependent (elapsed : Int) (leftover : Option Text) (outcomes : Outcomes) : Prop :=
  ∀ i outcomes', outcomes' i = outcomes i →
    slotLatency elapsed leftover outcomes' i = slotLatency elapsed leftover outcomes i

/-- The runs in which nothing leaks: no file is empty, but for that of the first slot, and
the first slot does not find a file that answers for it. A time of -1 counts as none. -/
structure NothingLeaks (elapsed : Int) (leftover : Option Text) (outcomes : Outcomes) :
    Prop where
  empty : ∀ i, i ≠ 0 → (outcomes i).ownFile = some [] → (outcomes i).elapsed = -1
  leftover : ∀ file, leftover = some file → testFile <+: file → (outcomes 0).ownFile = none →
    (outcomes 0).clock elapsed = -1

variable {elapsed : Int} {leftover : Option Text} {outcomes : Outcomes}
  {outcome : ProbeOutcome} {s : ProbeState} {line file : Text}

/-- A file that is not empty answers for itself. -/
theorem prefix_readLine (hne : file ≠ []) :
    testFile <+: readLine line file ↔ testFile <+: file := by
  have hread : (fgets 255 file).1 ≠ [] := by
    cases file with
    | nil => exact absurd rfl hne
    | cons c rest =>
        rw [fgets]
        split <;> simp
  rw [readLine, if_neg hread, prefix_fgets 255 file (by decide) (by decide)]

theorem ownFile_clock (h : outcome.ownFile = some file) (elapsed : Int) :
    outcome.clock elapsed = outcome.elapsed := by
  simp only [ProbeOutcome.ownFile] at h
  simp only [ProbeOutcome.clock]
  split at h
  · rename_i hresolved
    rw [if_pos hresolved]
  · cases h

theorem probeSlot_own (h : outcome.ownFile = some file) :
    probeSlot outcome s =
      (if testFile <+: readLine s.line file then outcome.elapsed else -1,
        ⟨readLine s.line file, outcome.elapsed, none⟩) := by
  rw [probeSlot, h, Option.some_or, ownFile_clock h]

theorem probeSlot_nothing (hown : outcome.ownFile = none) (hfile : s.file = none) :
    (probeSlot outcome s).1 = -1 := by
  rw [probeSlot, hown, hfile, Option.or_none]

theorem probeSlot_file (outcome : ProbeOutcome) (s : ProbeState) :
    (probeSlot outcome s).2.file = none := by
  rw [probeSlot]
  split <;> rfl

/-- The first turn removes what an earlier run has left. -/
theorem probeState_file (i : Fin nearestServersNum) (hi : i ≠ 0) :
    (probeState elapsed leftover outcomes i).file = none := by
  obtain ⟨n, hn⟩ := i
  cases n with
  | zero => exact absurd rfl hi
  | succ n =>
      rw [probeState, dif_pos (by omega)]
      exact probeSlot_file _ _

theorem slotLatency_leftover (hown : (outcomes 0).ownFile = none) (hfile : leftover = some file) :
    slotLatency elapsed leftover outcomes 0 =
      if testFile <+: readLine [] file then (outcomes 0).clock elapsed else -1 := by
  have hstart : probeState elapsed leftover outcomes (0 : Fin nearestServersNum) =
      ⟨[], elapsed, leftover⟩ := rfl
  rw [slotLatency, hstart, probeSlot, hown, hfile, Option.none_or]

def answering : ProbeOutcome := ⟨some ⟨0, 0⟩, some testFile, 0⟩

theorem probeState_answering {n : Nat} (hn : n < nearestServersNum)
    (h : outcomes ⟨n, hn⟩ = answering) :
    testFile <+: (probeState elapsed leftover outcomes (n + 1)).line := by
  have hown : answering.ownFile = some testFile := rfl
  rw [probeState, dif_pos hn, h, probeSlot_own hown]
  show testFile <+: readLine (probeState elapsed leftover outcomes n).line testFile
  rw [prefix_readLine (by decide)]

theorem ownAnswer_of_nothingLeaks (h : NothingLeaks elapsed leftover outcomes) :
    OwnAnswer elapsed leftover outcomes := by
  intro i hlatency
  cases hown : (outcomes i).ownFile with
  | none =>
      by_cases hi : i = 0
      · subst hi
        cases hleft : leftover with
        | none =>
            refine absurd ?_ hlatency
            exact probeSlot_nothing hown hleft
        | some file =>
            rw [slotLatency_leftover hown hleft] at hlatency
            split at hlatency
            · rename_i hanswer
              have hfile : file ≠ [] := by
                rintro rfl
                exact absurd hanswer (by decide)
              exact absurd
                (h.leftover file hleft ((prefix_readLine hfile).mp hanswer) hown) hlatency
            · exact absurd rfl hlatency
      · exact absurd (probeSlot_nothing hown (probeState_file i hi)) hlatency
  | some file =>
      refine ⟨file, rfl, ?_⟩
      rw [slotLatency, probeSlot_own hown] at hlatency
      split at hlatency
      · rename_i hanswer
        by_cases hfile : file = []
        · subst hfile
          by_cases hi : i = 0
          · subst hi
            exact hanswer
          · exact absurd (h.empty i hi hown) hlatency
        · exact (prefix_readLine hfile).mp hanswer
      · exact absurd rfl hlatency

theorem independent_of_nothingLeaks (h : NothingLeaks elapsed leftover outcomes) :
    SlotsIndependent elapsed leftover outcomes := by
  intro i outcomes' hsame
  by_cases hi : i = 0
  · subst hi
    rw [slotLatency, slotLatency, hsame]
    rfl
  · cases hown : (outcomes i).ownFile with
    | none =>
        rw [slotLatency, slotLatency, hsame, probeSlot_nothing hown (probeState_file i hi),
          probeSlot_nothing hown (probeState_file i hi)]
    | some file =>
        rw [slotLatency, slotLatency, hsame, probeSlot_own hown, probeSlot_own hown]
        by_cases hfile : file = []
        · subst hfile
          rw [h.empty i hi hown]
          simp
        · simp only [prefix_readLine hfile]

/-- An empty file takes the answer of the slot before. -/
theorem leaks_from_before (hindependent : SlotsIndependent elapsed leftover outcomes)
    {i : Fin nearestServersNum} (hi : i ≠ 0) (hown : (outcomes i).ownFile = some []) :
    slotLatency elapsed leftover outcomes i = (outcomes i).elapsed := by
  let others : Outcomes := fun j => if j = i then outcomes i else answering
  have hothers : others i = outcomes i := if_pos rfl
  rw [← hindependent i others hothers, slotLatency, hothers, probeSlot_own hown]
  obtain ⟨n, hn⟩ := i
  cases n with
  | zero => exact absurd rfl hi
  | succ n =>
      have hbefore : others ⟨n, by omega⟩ = answering := by
        refine if_neg fun hsame => ?_
        have hval : n = n + 1 := congrArg Fin.val hsame
        omega
      exact if_pos (probeState_answering (by omega) hbefore)

/-- Latencies come from the slot's own file, whatever the other slots met, exactly if
nothing leaks. -/
theorem own_answers_iff (elapsed : Int) (leftover : Option Text) (outcomes : Outcomes) :
    OwnAnswer elapsed leftover outcomes ∧ SlotsIndependent elapsed leftover outcomes ↔
      NothingLeaks elapsed leftover outcomes := by
  constructor
  · rintro ⟨howns, hindependent⟩
    refine ⟨fun i hi hown => ?_, fun file hleft hanswer hown => ?_⟩
    · by_contra hmeasured
      rw [← leaks_from_before hindependent hi hown] at hmeasured
      obtain ⟨file, hfile, hanswer⟩ := howns i hmeasured
      rw [hown, Option.some.injEq] at hfile
      rw [← hfile] at hanswer
      exact absurd hanswer (by decide)
    · by_contra hmeasured
      have hfile : file ≠ [] := by
        rintro rfl
        exact absurd hanswer (by decide)
      have hlatency := @slotLatency_leftover elapsed leftover outcomes file hown hleft
      rw [if_pos ((prefix_readLine hfile).mpr hanswer)] at hlatency
      rw [← hlatency] at hmeasured
      obtain ⟨own, hown', -⟩ := howns 0 hmeasured
      rw [hown] at hown'
      cases hown'
  · intro h
    exact ⟨ownAnswer_of_nothingLeaks h, independent_of_nothingLeaks h⟩

/-- The first slot answers; the file of the second one is empty. -/
theorem answer_taken_over :
    ∃ outcomes : Outcomes, (outcomes 1).ownFile = some [] ∧
      slotLatency 0 none outcomes 1 = 7 ∧ ¬ OwnAnswer 0 none outcomes := by
  refine ⟨fun i => if i = 0 then answering else ⟨some ⟨0, 0⟩, some [], 7⟩, rfl, ?_, ?_⟩
  · decide +kernel
  · intro howns
    obtain ⟨file, hfile, hanswer⟩ := howns 1 (by decide +kernel)
    have hempty : some [] = some file := hfile
    rw [← Option.some.inj hempty] at hanswer
    exact absurd hanswer (by decide)

/-- A probe that finds no address is not sent, and no file comes of it. -/
def FilesOfProbes (outcomes : Outcomes) : Prop :=
  ∀ i, (outcomes i).resolved = none → (outcomes i).file = none

theorem FilesOfProbes.ownFile (h : FilesOfProbes outcomes) (i : Fin nearestServersNum) :
    (outcomes i).ownFile = (outcomes i).file := by
  simp only [ProbeOutcome.ownFile]
  split
  · rfl
  · rename_i hresolved
    exact (h i (Option.not_isSome_iff_eq_none.mp hresolved)).symm

theorem probeState_none (n : Nat) : (probeState elapsed none outcomes n).file = none := by
  induction n with
  | zero => rfl
  | succ n ih =>
      rw [probeState]
      split
      · exact probeSlot_file _ _
      · exact ih

theorem probeState_line (h : FilesOfProbes outcomes) (n : Nat) :
    (probeState elapsed none outcomes n).line = lineBefore outcomes n := by
  induction n with
  | zero => rfl
  | succ n ih =>
      rw [probeState, lineBefore]
      split
      · rename_i hn
        cases hfile : (outcomes ⟨n, hn⟩).file with
        | none =>
            rw [probeSlot, h.ownFile, hfile, probeState_none, Option.or_none]
            exact ih
        | some file =>
            rw [probeSlot, h.ownFile, hfile, Option.some_or, ih]
      · exact ih

theorem slotLatency_eq (h : FilesOfProbes outcomes) (i : Fin nearestServersNum) :
    slotLatency elapsed none outcomes i = probeLatency (lineBefore outcomes i) (outcomes i) := by
  rw [slotLatency, probeLatency]
  cases hfile : (outcomes i).file with
  | none =>
      have hown : (outcomes i).ownFile = none := by rw [h.ownFile, hfile]
      exact probeSlot_nothing hown (probeState_none i)
  | some file =>
      have hown : (outcomes i).ownFile = some file := by rw [h.ownFile, hfile]
      rw [probeSlot_own hown, probeState_line h]
      rfl

end LinuxTraining.Speedtest
