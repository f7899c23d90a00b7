import LinuxTraining.Semaphores.RecordedNumbers

/-!
What a disturbed update leaves behind. An increment that is lost is missing at the end:
all numbers stay below the number of increments. An increment that comes between that
of another thread and its `fprintf` makes the sum of the numbers too large. And a line
that is overtaken reaches its file behind a larger one.
-/
namespace LinuxTraining.WritingFile
open Execution Semaphore

variable {n : Nat}

structure Below (b : Nat) (s : State n) : Prop where
  counter : s.g_common_var ≤ b
  loaded : ∀ t file loaded, s.pc t = .store file loaded → loaded ≤ b
  recorded : ∀ x ∈ s.recorded, x ≤ b

def Stale (s : State n) : Prop :=
  ∃ t file loaded, s.pc t = .store file loaded ∧ loaded < s.increments

def Lost (s : State n) : Prop := ∃ b, b < s.increments ∧ Below b s

structure Repeating (s : State n) : Prop where
  counter : s.g_common_var = s.increments
  loaded : ∀ t file loaded, s.pc t = .store file loaded → loaded = s.g_common_var
  recorded : ∀ x ∈ s.recorded, x ≤ s.increments
  sum : (upTo s.increments).sum < s.recorded.sum + s.pending * s.g_common_var

def Overtaken (s : State n) : Prop :=
  ∃ file x t y, x ∈ s.numbers file ∧ (s.pc t).unflushed = some (file, y) ∧ y < x

def Unsorted (s : State n) : Prop := ∃ file, ¬ (s.numbers file).Pairwise (· < ·)

variable {s u : State n} {e : Event n} {b : Nat}

theorem increments_of_eq (recorded : u.recorded = s.recorded) (pending : u.pending = s.pending) :
    u.increments = s.increments := by
  rw [State.increments, recorded, pending, State.increments]

theorem increments_of_store (recorded : u.recorded = s.recorded)
    (pending : u.pending = s.pending + 1) : u.increments = s.increments + 1 := by
  rw [State.increments, recorded, pending, State.increments, Nat.add_assoc]

theorem increments_of_record {g : Nat} (recorded : u.recorded = s.recorded + {g})
    (pending : u.pending + 1 = s.pending) : u.increments = s.increments := by
  rw [State.increments, recorded, Multiset.card_add, Multiset.card_singleton, State.increments]
  omega

theorem Below.keeps (hs : Below b s) (hcounts : Counts s e u)
    (hsame : u.increments = s.increments) : Below b u := by
  cases hcounts with
  | idle counter recorded pending kept new =>
      refine ⟨counter ▸ hs.counter, fun v file loaded hv => ?_, recorded ▸ hs.recorded⟩
      cases new v file loaded hv with
      | inl hold => exact hs.loaded v file loaded hold
      | inr hnew => exact hnew ▸ hs.counter
  | store t file loaded mover at_ counter recorded pending stores =>
      have hmore := increments_of_store recorded pending
      omega
  | record counter recorded pending stores =>
      refine ⟨counter ▸ hs.counter, fun v file loaded hv => ?_, fun x hx => ?_⟩
      · exact hs.loaded v file loaded ((stores _ _ _).mp hv)
      · rw [recorded, Multiset.mem_add, Multiset.mem_singleton] at hx
        cases hx with
        | inl hx => exact hs.recorded x hx
        | inr hx => exact hx ▸ hs.counter

theorem Below.stores {c : Nat} {t : Fin n} {loaded : Nat} (hs : Below b s) (hle : b ≤ c)
    (hc : loaded < c) (counter : u.g_common_var = loaded + 1)
    (recorded : u.recorded = s.recorded)
    (stores : ∀ v file loaded,
      u.pc v = .store file loaded ↔ v ≠ t ∧ s.pc v = .store file loaded) : Below c u where
  counter := by omega
  loaded := fun v file loaded hv =>
    (hs.loaded v file loaded ((stores _ _ _).mp hv).2).trans hle
  recorded := fun x hx => (hs.recorded x (recorded ▸ hx)).trans hle

theorem Lost.step (hs : Lost s) (hcounts : Counts s e u) : Lost u := by
  obtain ⟨b, hlt, hbelow⟩ := hs
  have hkeeps := hbelow.keeps hcounts
  cases hcounts with
  | store t file loaded mover at_ counter recorded pending stores =>
      have hle := hbelow.loaded t file loaded at_
      rw [Lost, increments_of_store recorded pending]
      exact ⟨b + 1, by omega, hbelow.stores (by omega) (by omega) counter recorded stores⟩
  | idle counter recorded pending kept new =>
      have hsame := increments_of_eq recorded pending
      exact ⟨b, hsame ▸ hlt, hkeeps hsame⟩
  | record counter recorded pending stores =>
      have hsame := increments_of_record recorded pending
      exact ⟨b, hsame ▸ hlt, hkeeps hsame⟩

/-- A stale value stays until its thread stores it, and then an increment is lost. -/
theorem Stale.step (hs : Stale s) (hbelow : Below s.increments s) (hcounts : Counts s e u) :
    (Stale u ∧ Below u.increments u) ∨ Lost u := by
  obtain ⟨w, wfile, wloaded, hw, hstale⟩ := hs
  have hkeeps := hbelow.keeps hcounts
  cases hcounts with
  | idle counter recorded pending kept new =>
      have hsame := increments_of_eq recorded pending
      rw [Stale, hsame]
      exact .inl ⟨⟨w, wfile, wloaded, kept w wfile wloaded hw, hstale⟩,
        hkeeps hsame⟩
  | record counter recorded pending stores =>
      have hsame := increments_of_record recorded pending
      rw [Stale, hsame]
      exact .inl ⟨⟨w, wfile, wloaded, (stores _ _ _).mpr hw, hstale⟩,
        hkeeps hsame⟩
  | store t file loaded mover at_ counter recorded pending stores =>
      have hmore := increments_of_store recorded pending
      have hle := hbelow.loaded t file loaded at_
      by_cases hwt : w = t
      · subst hwt
        obtain ⟨-, rfl⟩ := Pc.store.inj (hw.symm.trans at_)
        exact .inr ⟨s.increments, by omega,
          hbelow.stores (Nat.le_refl _) hstale counter recorded stores⟩
      · refine .inl ⟨⟨w, wfile, wloaded, (stores _ _ _).mpr ⟨hwt, hw⟩, by omega⟩, ?_⟩
        exact hbelow.stores (by omega) (by omega) counter recorded stores

theorem Repeating.below (hs : Repeating s) : Below s.increments s where
  counter := hs.counter.le
  loaded := fun t file loaded ht => (hs.loaded t file loaded ht).trans_le hs.counter.le
  recorded := hs.recorded

/-- After a store another thread holds a stale value, or the numbers are too many if they
were so with each pending one raised. -/
theorem store_repeats {t : Fin n} {file : File} {loaded : Nat}
    (hcounter : s.g_common_var = s.increments)
    (hloaded : ∀ v f l, s.pc v = .store f l → l = s.g_common_var)
    (hbelow : Below s.increments s) (at_ : s.pc t = .store file loaded)
    (counter : u.g_common_var = loaded + 1) (recorded : u.recorded = s.recorded)
    (pending : u.pending = s.pending + 1)
    (stores : ∀ v file loaded,
      u.pc v = .store file loaded ↔ v ≠ t ∧ s.pc v = .store file loaded)
    (hsum : (∀ v f l, u.pc v ≠ .store f l) →
      (upTo s.increments).sum < s.recorded.sum + s.pending * (s.g_common_var + 1)) :
    Repeating u ∨ (Stale u ∧ Below u.increments u) := by
  have hmore := increments_of_store recorded pending
  have hnow := hloaded t file loaded at_
  have hbelow' : Below u.increments u :=
    hbelow.stores (by omega) (by omega) counter recorded stores
  by_cases hothers : ∃ v f l, u.pc v = .store f l
  · obtain ⟨v, f, l, hv⟩ := hothers
    have hl := hloaded v f l ((stores v f l).mp hv).2
    exact .inr ⟨⟨v, f, l, hv, by omega⟩, hbelow'⟩
  · have hnone : ∀ v f l, u.pc v ≠ .store f l := fun v f l hv => hothers ⟨v, f, l, hv⟩
    refine .inl ⟨by omega, fun v f l hv => absurd hv (hnone v f l), hbelow'.recorded, ?_⟩
    have hraised := hsum hnone
    rw [hmore, upTo_succ, recorded, pending, counter, hnow, Multiset.sum_add,
      Multiset.sum_singleton, Nat.add_mul]
    omega

/-- The numbers stay too many, or a value becomes stale. -/
theorem Repeating.step (hs : Repeating s) (hcounts : Counts s e u) :
    Repeating u ∨ (Stale u ∧ Below u.increments u) := by
  have hkeeps := hs.below.keeps hcounts
  cases hcounts with
  | idle counter recorded pending kept new =>
      have hsame := increments_of_eq recorded pending
      have hbelow := hkeeps hsame
      refine .inl ⟨by rw [counter, hsame, hs.counter], fun v file loaded hv => ?_,
        by rw [hsame]; exact hbelow.recorded,
        by rw [hsame, recorded, pending, counter]; exact hs.sum⟩
      rw [counter]
      cases new v file loaded hv with
      | inl hold => exact hs.loaded v file loaded hold
      | inr hnew => exact hnew
  | record counter recorded pending stores =>
      have hsame := increments_of_record recorded pending
      have hbelow := hkeeps hsame
      refine .inl ⟨by rw [counter, hsame, hs.counter], fun v file loaded hv => ?_,
        by rw [hsame]; exact hbelow.recorded, ?_⟩
      · rw [counter]
        exact hs.loaded v file loaded ((stores _ _ _).mp hv)
      · have hsum := hs.sum
        rw [← pending, Nat.add_mul, Nat.one_mul] at hsum
        rw [hsame, recorded, counter, Multiset.sum_add, Multiset.sum_singleton]
        omega
  | store t file loaded mover at_ counter recorded pending stores =>
      refine store_repeats hs.counter hs.loaded hs.below at_ counter recorded pending stores
        fun _ => ?_
      have hsum := hs.sum
      rw [Nat.mul_add]
      omega

theorem numbers_grow (h : Moves s e u) (file : File) : s.numbers file <+: u.numbers file := by
  cases h with
  | @fclose t file' number at_ =>
      rw [numbers_fclose]
      by_cases hfile : file = file'
      · rw [if_pos hfile, hfile]
        exact List.prefix_append _ _
      · rw [if_neg hfile]
  | _ => exact List.prefix_rfl

theorem Unsorted.step (hs : Unsorted s) (h : Moves s e u) : Unsorted u := by
  obtain ⟨file, hfile⟩ := hs
  exact ⟨file, fun hsorted => hfile (hsorted.sublist (numbers_grow h file).sublist)⟩

/-- An overtaken number stays in its buffer, or goes to its file behind the larger one. -/
theorem Overtaken.step (hs : Overtaken s) (h : Moves s e u) : Overtaken u ∨ Unsorted u := by
  obtain ⟨file, x, w, y, hx, hy, hlt⟩ := hs
  have hxu := (numbers_grow h file).subset hx
  have hstays : (u.pc w).unflushed = (s.pc w).unflushed → Overtaken u := fun hsame =>
    ⟨file, x, w, y, hxu, hsame.trans hy, hlt⟩
  cases h with
  | @silent _ t pc sem mover from_ open_ to_ buffer =>
      refine .inl (hstays ?_)
      by_cases hw : w = t
      · simp [State.goto, hw, buffer]
      · simp [State.goto, hw]
  | @load t _ at_ | @store t _ _ at_ | @fprintf t _ at_ =>
      have hw : w ≠ t := fun hw => by simp [hw, at_, Pc.unflushed] at hy
      exact .inl (hstays (by simp [State.goto, hw]))
  | @fclose t file' number at_ =>
      by_cases hw : w = t
      · simp only [hw, at_, Pc.unflushed, Option.some.injEq, Prod.mk.injEq] at hy
        obtain ⟨rfl, rfl⟩ := hy
        refine .inr ⟨file', fun hsorted => ?_⟩
        rw [numbers_fclose, if_pos rfl, List.pairwise_append] at hsorted
        have := hsorted.2.2 x hx number (by simp)
        omega
      · exact .inl (hstays (by simp [State.goto, hw]))

def Disturbed (s : State n) : Prop :=
  (Stale s ∧ Below s.increments s) ∨ Lost s ∨ Repeating s ∨ Overtaken s ∨ Unsorted s

theorem Disturbed.step (hs : Disturbed s) (h : Moves s e u) : Disturbed u := by
  cases hs with
  | inl hstale =>
      cases hstale.1.step hstale.2 (counts h) with
      | inl hstale => exact .inl hstale
      | inr hlost => exact .inr (.inl hlost)
  | inr hs =>
      cases hs with
      | inl hlost => exact .inr (.inl (hlost.step (counts h)))
      | inr hs =>
          cases hs with
          | inl hrepeating =>
              cases hrepeating.step (counts h) with
              | inl hrepeating => exact .inr (.inr (.inl hrepeating))
              | inr hstale => exact .inl hstale
          | inr hs =>
              cases hs with
              | inl hovertaken => exact .inr (.inr (.inr (hovertaken.step h)))
              | inr hunsorted => exact .inr (.inr (.inr (.inr (hunsorted.step h))))

theorem Kept.below (hs : Kept s) : Below s.increments s where
  counter := hs.increments.ge
  loaded := fun t file loaded ht => (hs.loaded t file loaded ht).trans_le hs.increments.ge
  recorded := fun _ hx => (hs.le_counter hx).trans hs.increments.ge

/-- A store while another thread is in its update. -/
theorem Kept.disturbed_store (hs : Kept s) {t v : Fin n} {file : File} {loaded : Nat}
    (at_ : s.pc t = .store file loaded) (hne : v ≠ t) (hupdating : (s.pc v).updating = true)
    (hu : u = { s.goto t (.fprintf file) with g_common_var := loaded + 1 }) : Disturbed u := by
  obtain ⟨recorded, pending, stores⟩ := counts_store at_ hu
  have hcounter : u.g_common_var = loaded + 1 := by rw [hu]
  have hdisturbed : Repeating u ∨ (Stale u ∧ Below u.increments u) := by
    refine store_repeats hs.increments.symm hs.loaded hs.below at_ hcounter recorded pending
      stores fun hnone => ?_
    have hpos : 0 < s.pending := by
      cases hpc : s.pc v with
      | store f l => exact absurd ((stores v f l).mpr ⟨hne, hpc⟩) (hnone v f l)
      | fprintf f => exact pending_pos hpc
      | _ => simp [hpc, Pc.updating] at hupdating
    have hsum := congrArg Multiset.sum hs.tally
    rw [Multiset.sum_add, Multiset.sum_replicate, Nat.nsmul_eq_mul] at hsum
    rw [hs.increments, ← hsum, Nat.mul_add]
    omega
  cases hdisturbed with
  | inl hrepeating => exact .inr (.inr (.inl hrepeating))
  | inr hstale => exact .inl hstale

/-- A close that overtakes another number. -/
theorem disturbed_fclose {t v : Fin n} {file : File} {number y : Nat} (hne : v ≠ t)
    (hy : (s.pc v).unflushed = some (file, y)) (hlt : y < number)
    (hu : u = { s.goto t .fopen with
        lines := Function.update s.lines file (s.lines file ++ [⟨t + 1, number⟩])
        i := Function.update s.i t (s.i t + 1) }) : Disturbed u := by
  refine .inr (.inr (.inr (.inl ⟨file, number, v, y, ?_, ?_, hlt⟩)))
  · rw [hu, numbers_fclose, if_pos rfl]
    simp
  · simpa [hu, State.goto, hne] using hy

theorem overtakes_eq_true {pc other : Pc} (h : pc.overtakes other = true) :
    ∃ file number y, pc = .fclose file number ∧ other.unflushed = some (file, y) ∧ y < number := by
  simp only [Pc.overtakes] at h
  split at h
  · rename_i hother
    obtain ⟨rfl, hlt⟩ := of_decide_eq_true h
    exact ⟨_, _, _, rfl, hother, hlt⟩
  · cases h

theorem Kept.spoils (hs : Kept s) (hc : ¬ Undisturbed s e) (h : Moves s e u) : Disturbed u := by
  simp only [Undisturbed, not_forall, not_and_or] at hc
  obtain ⟨t, rfl, hc⟩ := hc
  cases hc with
  | inl hstore =>
      obtain ⟨hstoring, v, hne, hupdating⟩ := hstore
      cases h with
      | silent mover from_ =>
          rw [mover t rfl, storing_of_updating from_] at hstoring
          cases hstoring
      | store at_ => exact hs.disturbed_store at_ hne (by simpa using hupdating) rfl
      | load at_ | fprintf at_ | fclose at_ => simp [at_, Pc.storing] at hstoring
  | inr hclose =>
      obtain ⟨v, hne, hovertakes⟩ := hclose
      obtain ⟨file, number, y, hclose, hy, hlt⟩ := overtakes_eq_true (by simpa using hovertakes)
      cases h with
      | silent mover from_ open_ => exact absurd (mover t rfl ▸ hclose) (open_ file number)
      | load at_ | store at_ | fprintf at_ => simp [at_] at hclose
      | fclose at_ =>
          obtain ⟨rfl, rfl⟩ := Pc.fclose.inj (at_.symm.trans hclose)
          exact disturbed_fclose hne hy hlt rfl

def State.iterations (s : State n) : Nat := ∑ t, s.i t

/-- The numbers in the two files are 1, 2, ... up to the number of iterations, and each
file has them in increasing order. -/
structure AllRecorded (s : State n) : Prop where
  each : (s.numbers .output1 ++ s.numbers .output2).Perm (List.range' 1 s.iterations)
  sorted : ∀ file, (s.numbers file).Pairwise (· < ·)

/-- Each iteration has written one line. -/
theorem iterations_step (h : Moves s e u)
    (hs : (s.numbers .output1).length + (s.numbers .output2).length = s.iterations) :
    (u.numbers .output1).length + (u.numbers .output2).length = u.iterations := by
  cases h with
  | @fclose t file number at_ =>
      have hsum := sum_update (fun k : Nat => k) s.i t (s.i t + 1)
      simp only [State.iterations] at hs ⊢
      cases file with
      | output1 =>
          simp only [numbers_fclose, if_true, reduceCtorEq, if_false, List.length_append,
            List.length_singleton]
          omega
      | output2 =>
          simp only [numbers_fclose, if_true, reduceCtorEq, if_false, List.length_append,
            List.length_singleton]
          omega
  | _ => exact hs

theorem finished_recorded (hs : s.Finished) :
    s.recorded = (s.numbers .output1 ++ s.numbers .output2 : List Nat) ∧ s.pending = 0 := by
  constructor
  · rw [State.recorded, Finset.sum_eq_zero fun t _ => by simp [hs t, Pc.buffered, Pc.unflushed],
      add_zero, Multiset.coe_add]
  · exact pending_eq_zero fun t => by simp [hs t, Pc.printing]

theorem finished_increments (hs : s.Finished) :
    s.increments = (s.numbers .output1).length + (s.numbers .output2).length := by
  rw [State.increments, (finished_recorded hs).1, (finished_recorded hs).2]
  simp

theorem Kept.allRecorded (hs : Kept s) (hfinished : s.Finished)
    (hlines : (s.numbers .output1).length + (s.numbers .output2).length = s.iterations) :
    AllRecorded s where
  each := by
    obtain ⟨hrecorded, hpending⟩ := finished_recorded hfinished
    have htally := hs.tally
    rw [hpending, Multiset.replicate_zero, add_zero, hrecorded, ← hs.increments,
      finished_increments hfinished, hlines] at htally
    exact Multiset.coe_eq_coe.mp htally
  sorted := hs.sorted

/-- A disturbance shows in the files. -/
theorem Disturbed.not_allRecorded (hs : Disturbed s) (hfinished : s.Finished) :
    ¬ AllRecorded s := by
  intro hall
  obtain ⟨hrecorded, hpending⟩ := finished_recorded hfinished
  have hupTo : s.recorded = upTo s.iterations := by
    rw [hrecorded]
    exact Multiset.coe_eq_coe.mpr hall.each
  have hinc : s.increments = s.iterations := by
    rw [State.increments, hupTo, hpending, card_upTo, Nat.add_zero]
  cases hs with
  | inl hstale =>
      obtain ⟨⟨t, file, loaded, ht, -⟩, -⟩ := hstale
      simp [hfinished t] at ht
  | inr hs =>
      cases hs with
      | inl hlost =>
          obtain ⟨b, hlt, hbelow⟩ := hlost
          have hmem : s.iterations ∈ s.recorded := by
            rw [hupTo, mem_upTo]
            omega
          have := hbelow.recorded _ hmem
          omega
      | inr hs =>
          cases hs with
          | inl hrepeating =>
              have hsum := hrepeating.sum
              rw [hinc, hupTo, hpending, Nat.zero_mul, Nat.add_zero] at hsum
              exact Nat.lt_irrefl _ hsum
          | inr hs =>
              cases hs with
              | inl hovertaken =>
                  obtain ⟨file, x, t, y, -, hy, -⟩ := hovertaken
                  simp [hfinished t, Pc.unflushed] at hy
              | inr hunsorted =>
                  obtain ⟨file, hfile⟩ := hunsorted
                  exact hfile (hall.sorted file)

variable {maxValue : Nat}

def LoopsDone (maxValue : Nat) (s : State n) : Prop :=
  ∀ t, s.i t ≤ maxValue ∧ (s.pc t = .done → s.i t = maxValue) ∧
    (s.pc t ≠ .fopen → s.pc t ≠ .done → s.i t < maxValue)

theorem LoopsDone.goto (hs : LoopsDone maxValue s) {t : Fin n} {pc : Pc} (hi : u.i = s.i)
    (hpc : u.pc = Function.update s.pc t pc) (hdone : pc = .done → s.i t = maxValue)
    (hinside : pc ≠ .fopen → pc ≠ .done → s.i t < maxValue) : LoopsDone maxValue u := by
  intro v
  rw [hi, hpc]
  by_cases hv : v = t
  · subst hv
    simpa using ⟨(hs v).1, hdone, hinside⟩
  · simpa [hv] using hs v

theorem LoopsDone.run (hs : LoopsDone maxValue s) {t : Fin n}
    (h : s.run maxValue t = some u) : LoopsDone maxValue u := by
  obtain ⟨hle, hdone, hinside⟩ := hs t
  cases hpc : s.pc t with
  | fopen =>
      simp only [State.run, hpc, Option.ite_none_left_eq_some, Option.some.injEq] at h
      obtain ⟨hall, rfl⟩ := h
      exact hs.goto rfl rfl (fun _ => by omega) fun _ hne => absurd rfl hne
  | semWait file =>
      have hlt := hinside (by simp [hpc]) (by simp [hpc])
      simp only [State.run, hpc, Option.bind_eq_bind, Option.bind_eq_some_iff,
        Option.some.injEq] at h
      obtain ⟨value, -, rfl⟩ := h
      exact hs.goto rfl rfl (by simp) fun _ _ => hlt
  | store file loaded =>
      have hlt := hinside (by simp [hpc]) (by simp [hpc])
      simp only [State.run, hpc, Option.ite_none_right_eq_some, Option.some.injEq] at h
      obtain ⟨-, rfl⟩ := h
      exact hs.goto rfl rfl (by simp) fun _ _ => hlt
  | load | fprintf | printf | sleep | semPost =>
      have hlt := hinside (by simp [hpc]) (by simp [hpc])
      simp only [State.run, hpc, Option.some.injEq] at h
      subst h
      exact hs.goto rfl rfl (by simp) fun _ _ => hlt
  | fclose file number =>
      have hlt := hinside (by simp [hpc]) (by simp [hpc])
      simp only [State.run, hpc, Option.some.injEq] at h
      subst h
      intro v
      by_cases hv : v = t
      · subst hv
        simp [State.goto, Nat.succ_le_of_lt hlt]
      · simpa [State.goto, hv] using hs v
  | done => simp [State.run, hpc] at h

theorem LoopsDone.step (hs : LoopsDone maxValue s) (hopens : ∀ t, e ≠ .fopenFails t)
    (h : WritingFile.step maxValue s e = some u) : LoopsDone maxValue u := by
  cases e with
  | run t => exact hs.run h
  | fopenFails t => exact absurd rfl (hopens t)
  | fopen t file =>
      simp only [WritingFile.step, Option.ite_none_right_eq_some, Option.some.injEq] at h
      obtain ⟨⟨-, hlt⟩, rfl⟩ := h
      exact hs.goto rfl rfl (by simp) fun _ _ => hlt

/-- When no `fopen` fails, every thread carries out all its iterations. -/
theorem iterations_eq {es : List (Event n)} (h : run (step maxValue) (start n) es = some s)
    (hfinished : s.Finished) (hopens : ∀ t, .fopenFails t ∉ es) :
    s.iterations = n * maxValue := by
  have hloops : LoopsDone maxValue s :=
    invariant_along (fun _ _ _ hs hc hstep => LoopsDone.step hs hc hstep)
      (fun t => by simp [start])
      (along_of_forall _ fun e he _ t heq => hopens t (heq ▸ he)) h
  have hall : ∀ t, s.i t = maxValue := fun t => (hloops t).2.1 (hfinished t)
  simp [State.iterations, hall]

/-- When all threads have returned, the numbers in the files are 1, 2, ..., each once and
in order in its file, exactly when no update and no close of the run was disturbed. -/
theorem all_recorded_iff (n maxValue : Nat) (es : List (Event n)) (s : State n)
    (h : run (step maxValue) (start n) es = some s) (hfinished : s.Finished) :
    (AllRecorded s ↔ Along (step maxValue) Undisturbed (start n) es) ∧
      ((∀ t, .fopenFails t ∉ es) → s.iterations = n * maxValue) := by
  refine ⟨?_, iterations_eq h hfinished⟩
  have hlines := invariant_run (fun _ _ _ hs hstep => iterations_step (step_cases hstep) hs)
    (by simp [start, State.numbers, State.iterations]) h
  have hrun := good_iff_along (fun _ _ _ hs hc hstep => Kept.step hs hc (step_cases hstep))
    (fun _ _ _ hs hc hstep => Kept.spoils hs hc (step_cases hstep))
    (fun _ _ _ hs hstep => Disturbed.step hs (step_cases hstep)) (Kept.start n) h
  cases hrun with
  | inl hkept => exact iff_of_true (hkept.2.allRecorded hfinished hlines) hkept.1
  | inr hdisturbed =>
      exact iff_of_false (hdisturbed.2.not_allRecorded hfinished) hdisturbed.1

def inTurn : List (Event 2) :=
  [.fopen 0 .output1, .run 0, .run 0, .run 0, .run 0, .run 0, .run 0, .run 0, .run 0, .run 0,
    .fopen 1 .output2, .run 1, .run 1, .run 1, .run 1, .run 1, .run 1, .run 1, .run 1, .run 1]

theorem all_recorded_iff_in_turn :
    ∃ s, run (step 1) (start 2) inTurn = some s ∧ AllRecorded s ∧ s.iterations = 2 := by
  have hmap : (run (step 1) (start 2) inTurn).map State.pc = some fun _ => .done := by
    decide +kernel
  obtain ⟨s, hs, hpc⟩ := Option.map_eq_some_iff.mp hmap
  obtain ⟨hall, hiterations⟩ := all_recorded_iff 2 1 inTurn s hs fun t => congrFun hpc t
  exact ⟨s, hs, hall.mpr (by decide +kernel), hiterations (by decide)⟩

def atOnce : List (Event 2) :=
  [.fopen 0 .output1, .fopen 1 .output2, .run 0, .run 1, .run 0, .run 1, .run 0, .run 1,
    .run 0, .run 0, .run 0, .run 0, .run 0, .run 0, .run 1, .run 1, .run 1, .run 1, .run 1, .run 1]

/-- Number 1 is in both files, and number 2 in none. -/
theorem lost_increment :
    ∃ s, run (step 1) (start 2) atOnce = some s ∧ s.Finished ∧
      s.lines .output1 = [⟨1, 1⟩] ∧ s.lines .output2 = [⟨2, 1⟩] := by
  have hmap : (run (step 1) (start 2) atOnce).map
      (fun s => (s.pc, s.lines .output1, s.lines .output2)) =
        some (fun _ => .done, [⟨1, 1⟩], [⟨2, 1⟩]) := by decide +kernel
  obtain ⟨s, hs, hstate⟩ := Option.map_eq_some_iff.mp hmap
  obtain ⟨hpc, hlines⟩ := Prod.mk.inj hstate
  obtain ⟨h1, h2⟩ := Prod.mk.inj hlines
  exact ⟨s, hs, fun t => congrFun hpc t, h1, h2⟩

end LinuxTraining.WritingFile
