import PnyxDB.Consensus.Checkpoint
import PnyxDB.Consensus.QueryStore.Basic
import Mathlib.Data.List.Perm.Subperm

/-!
The checkpoint routine of `Engine.Run`: the goroutine that gathers the checkpoint candidates that
`Engine.checkState` sends on `pendingCheckpoints` and broadcasts them in `StartCheckpoint` messages.
It keeps them in the slice `pending` with `addToSet`, and starts when `pending` reaches
`checkpointRoutineBatch` uuids or when its timer expires: it sorts `pending`, broadcasts the first
`checkpointRoutineSelect` uuids and keeps the rest.

* `routine_inv` — over every run, no uuid is pending twice and fewer than `checkpointRoutineBatch`
  are pending, and every `StartCheckpoint` carries one to `checkpointRoutineSelect` distinct uuids in
  `sort.Strings` order. The routine tests `len(pending) == checkpointRoutineBatch`, an equality: it
  is never passed over because `pending` grows by one uuid at a time.
* `routine_conserves` — no candidate is lost and none is broadcast twice: every candidate received
  is pending or was broadcast, and the uuids broadcast and pending, counted with their multiplicity,
  are among the candidates received.
* `start_sends_smallest` — a start broadcasts uuids that sort before every uuid it keeps.
* `routine_drains` — four expiries of the timer with no candidate in between broadcast every
  candidate ever received.

The timer (its period, `Stop` and `Reset`), the cooldown after a broadcast and the end of the
context are left out: an expiry is an event of the run. A failed `Broadcast` is not retried; its
error is dropped, and the batch counts as broadcast.
-/

namespace PnyxDB.Consensus.Engine

open PnyxDB.Consensus

/-- `checkpointRoutineBatch`: the number of pending uuids that starts a checkpoint at once. -/
def checkpointRoutineBatch : Nat := 100

/-- `checkpointRoutineSelect`: the most uuids one `StartCheckpoint` carries. -/
def checkpointRoutineSelect : Nat := 30

/-- `start` of the checkpoint routine, on its slice `pending`: with uuids pending, they are
sorted, the first `checkpointRoutineSelect` are broadcast and the rest stay pending; with none,
nothing happens. The pending uuids after, and the batch broadcast. -/
def start (pending : List String) : List String × Option (List String) :=
  if 0 < pending.length then
    let sorted := sortStrings pending
    let n := if pending.length < checkpointRoutineSelect then pending.length
      else checkpointRoutineSelect
    (sorted.drop n, some (sorted.take n))
  else (pending, none)

/-- What wakes the checkpoint routine. -/
inductive RoutineEvent
  /-- `c := <-eng.pendingCheckpoints`: `Engine.checkState` sent the candidate `c`. -/
  | candidate (c : String)
  /-- `<-timer.C`: the timer expired. -/
  | expire

/-- The candidates among events. -/
def candidates (evs : List RoutineEvent) : List String :=
  evs.filterMap fun
    | .candidate c => some c
    | .expire => none

/-- The checkpoint routine: its slice `pending` and, as a ghost, the batches it broadcast, in
order. -/
structure Routine where
  pending : List String
  sent : List (List String)

namespace Routine

/-- The routine when `Run` starts it. -/
def init : Routine := ⟨[], []⟩

/-- `start` on the routine. -/
def start (s : Routine) : Routine :=
  ⟨(Engine.start s.pending).1, s.sent ++ (Engine.start s.pending).2.toList⟩

/-- One pass of the loop of the routine: a candidate joins `pending`, and starts a checkpoint if it
makes `checkpointRoutineBatch` of them; an expiry starts one. -/
def step (s : Routine) : RoutineEvent → Routine
  | .candidate c =>
    let s := { s with pending := addToSet s.pending c }
    if s.pending.length = checkpointRoutineBatch then s.start else s
  | .expire => s.start

/-- The routine after the events `evs`, in order. -/
def run (s : Routine) (evs : List RoutineEvent) : Routine := evs.foldl step s

/-- Every uuid the routine took in: those it broadcast, then those pending. -/
def held (s : Routine) : List String := s.sent.flatten ++ s.pending

end Routine

/-! ### `start` -/

/-- The order `sort.Strings` sorts by. -/
def StringLe (a b : String) : Prop := bytesLess (stringBytes b) (stringBytes a) = false

theorem start_nil : start [] = ([], none) := rfl

theorem start_of_ne_nil {pending : List String} (h : pending ≠ []) :
    start pending = ((sortStrings pending).drop (min checkpointRoutineSelect pending.length),
      some ((sortStrings pending).take (min checkpointRoutineSelect pending.length))) := by
  have hpos : 0 < pending.length := List.length_pos.2 h
  have hn : (if pending.length < checkpointRoutineSelect then pending.length
      else checkpointRoutineSelect) = min checkpointRoutineSelect pending.length := by
    split_ifs <;> omega
  simp only [start, hpos, if_true, hn]

/-- `start` moves the uuids it broadcasts out of `pending`, and keeps the others. -/
theorem start_perm (pending : List String) :
    ((start pending).2.toList.flatten ++ (start pending).1).Perm pending := by
  by_cases h : pending = []
  · subst h
    rfl
  · rw [start_of_ne_nil h]
    simpa only [Option.toList_some, List.flatten_singleton, List.take_append_drop] using
      sortStrings_perm pending

theorem start_length (pending : List String) :
    (start pending).1.length = pending.length - checkpointRoutineSelect := by
  by_cases h : pending = []
  · subst h
    rfl
  · rw [start_of_ne_nil h, List.length_drop, sortStrings_length]
    omega

/-- A start broadcasts one to `checkpointRoutineSelect` distinct uuids, in `sort.Strings` order. -/
def BatchOk (batch : List String) : Prop :=
  batch ≠ [] ∧ batch.length ≤ checkpointRoutineSelect ∧ batch.Nodup ∧ batch.Sorted StringLe

theorem start_batchOk {pending batch : List String} (hn : pending.Nodup)
    (h : (start pending).2 = some batch) : BatchOk batch := by
  by_cases hp : pending = []
  · subst hp
    cases h
  rw [start_of_ne_nil hp] at h
  cases h
  have hpos : 0 < pending.length := List.length_pos.2 hp
  have hsorted : (sortStrings pending).Sorted StringLe := sortStrings_sorted pending
  refine ⟨?_, ?_, ?_, hsorted.sublist (List.take_sublist _ _)⟩
  · rw [← List.length_pos, List.length_take, sortStrings_length]
    simp only [checkpointRoutineSelect] at hpos ⊢
    omega
  · simp only [List.length_take]
    omega
  · exact ((sortStrings_perm pending).nodup_iff.2 hn).sublist (List.take_sublist _ _)

/-- A start broadcasts uuids that sort before every uuid it keeps pending. -/
theorem start_sends_smallest {pending batch : List String} (h : (start pending).2 = some batch) :
    ∀ x ∈ batch, ∀ y ∈ (start pending).1, StringLe x y := by
  by_cases hp : pending = []
  · subst hp
    cases h
  rw [start_of_ne_nil hp] at h ⊢
  cases h
  exact fun x hx y hy => (sortStrings_sorted pending).rel_of_mem_take_of_mem_drop hx hy

theorem start_sends_smallest_first :
    ∃ batch, (start ("b" :: List.replicate 30 "a")).2 = some batch ∧
      ∀ x ∈ batch, ∀ y ∈ (start ("b" :: List.replicate 30 "a")).1, StringLe x y :=
  ⟨_, rfl, start_sends_smallest rfl⟩

/-! ### Over every run -/

namespace Routine

/-- What holds of the routine between two passes of its loop. -/
structure Inv (s : Routine) : Prop where
  nodup : s.pending.Nodup
  below : s.pending.length < checkpointRoutineBatch
  batches : ∀ batch ∈ s.sent, BatchOk batch

theorem Inv.init : Routine.init.Inv := ⟨List.nodup_nil, by decide, by simp [Routine.init]⟩

/-- `start` from at most `checkpointRoutineBatch` distinct pending uuids leaves fewer. -/
theorem inv_start {s : Routine} (hn : s.pending.Nodup)
    (hl : s.pending.length ≤ checkpointRoutineBatch) (hb : ∀ batch ∈ s.sent, BatchOk batch) :
    s.start.Inv where
  nodup := ((start_perm s.pending).nodup_iff.2 hn).sublist (List.sublist_append_right _ _)
  below := by
    simp only [start, start_length]
    simp only [checkpointRoutineBatch, checkpointRoutineSelect] at hl ⊢
    omega
  batches := by
    intro batch hbatch
    rcases List.mem_append.1 hbatch with h | h
    · exact hb batch h
    · exact start_batchOk hn (Option.mem_toList.1 h)

theorem Inv.step {s : Routine} (hi : s.Inv) (ev : RoutineEvent) : (s.step ev).Inv := by
  cases ev with
  | expire => exact inv_start hi.nodup hi.below.le hi.batches
  | candidate c =>
    have hn := nodup_addToSet hi.nodup c
    have hl : (addToSet s.pending c).length ≤ s.pending.length + 1 := by
      unfold addToSet
      split_ifs <;> simp
    have hb := hi.below
    simp only [Routine.step]
    split_ifs with hfull
    · exact inv_start hn hfull.le hi.batches
    · exact ⟨hn, show (addToSet s.pending c).length < _ by omega, hi.batches⟩

theorem Inv.run {s : Routine} (hi : s.Inv) : ∀ evs, (s.run evs).Inv
  | [] => hi
  | ev :: evs => (hi.step ev).run evs

/-- Over every run, no uuid is pending twice and fewer than `checkpointRoutineBatch` are pending,
and every `StartCheckpoint` broadcast carries one to `checkpointRoutineSelect` distinct uuids, in
`sort.Strings` order. -/
theorem routine_inv (evs : List RoutineEvent) : (Routine.init.run evs).Inv := Inv.init.run evs

/-! ### No candidate lost or duplicated -/

theorem held_start (s : Routine) : s.start.held.Perm s.held := by
  simp only [held, start, List.flatten_append, List.append_assoc]
  exact (start_perm s.pending).append_left _

theorem step_held_subperm (s : Routine) (ev : RoutineEvent) :
    (s.step ev).held.Subperm (s.held ++ candidates [ev]) := by
  have hadd : ∀ c, ({ s with pending := addToSet s.pending c } : Routine).held.Subperm
      (s.held ++ [c]) := fun c => by
    simp only [held, addToSet]
    split_ifs
    · exact (List.sublist_append_left _ _).subperm
    · rw [List.append_assoc]
  cases ev with
  | expire => simpa [candidates] using (held_start s).subperm
  | candidate c =>
    simp only [step, candidates, List.filterMap_cons, List.filterMap_nil]
    split_ifs
    · exact (held_start _).subperm.trans (hadd c)
    · exact hadd c

theorem mem_step_held {s : Routine} {ev : RoutineEvent} {c : String}
    (h : c ∈ s.held ∨ c ∈ candidates [ev]) : c ∈ (s.step ev).held := by
  have hadd : ∀ c', c ∈ ({ s with pending := addToSet s.pending c' } : Routine).held ↔
      c ∈ s.held ∨ c = c' := fun c' => by
    simp [held, or_assoc]
  cases ev with
  | expire =>
    show c ∈ s.start.held
    rw [(held_start s).mem_iff]
    simpa [candidates] using h
  | candidate c' =>
    simp only [candidates, List.filterMap_cons, List.filterMap_nil, List.mem_singleton] at h
    simp only [step]
    split_ifs
    · exact (held_start _).mem_iff.2 ((hadd c').2 h)
    · exact (hadd c').2 h

theorem run_held (s : Routine) : ∀ evs : List RoutineEvent,
    (s.run evs).held.Subperm (s.held ++ candidates evs) ∧
      ∀ c, c ∈ s.held ∨ c ∈ candidates evs → c ∈ (s.run evs).held
  | [] => ⟨by simpa [run, candidates] using List.Subperm.refl s.held,
      fun c h => by simpa [run, candidates] using h⟩
  | ev :: evs => by
    have hcons : candidates (ev :: evs) = candidates [ev] ++ candidates evs := by
      simp only [candidates, ← List.filterMap_append, List.singleton_append]
    obtain ⟨hsub, hmem⟩ := run_held (s.step ev) evs
    refine ⟨hsub.trans ?_, fun c h => hmem c ?_⟩
    · rw [hcons, ← List.append_assoc]
      exact (List.subperm_append_right _).2 (step_held_subperm s ev)
    · rw [hcons, List.mem_append] at h
      rcases h with h | h | h
      · exact .inl (mem_step_held (.inl h))
      · exact .inl (mem_step_held (.inr h))
      · exact .inr h

/-- The routine loses no candidate and broadcasts none twice: every candidate received is pending
or was broadcast, and the uuids broadcast and pending, counted with their multiplicity, are among
the candidates received. -/
theorem routine_conserves (evs : List RoutineEvent) :
    (∀ c ∈ candidates evs, c ∈ (Routine.init.run evs).pending ∨
        ∃ batch ∈ (Routine.init.run evs).sent, c ∈ batch) ∧
      ((Routine.init.run evs).sent.flatten ++ (Routine.init.run evs).pending).Subperm
        (candidates evs) := by
  obtain ⟨hsub, hmem⟩ := run_held Routine.init evs
  refine ⟨fun c hc => ?_, by simpa [held, Routine.init] using hsub⟩
  have := hmem c (.inr hc)
  simp only [held, List.mem_append, List.mem_flatten] at this
  exact this.symm

/-- Each expiry of the timer takes `checkpointRoutineSelect` uuids out of `pending`. -/
theorem run_expire_length (s : Routine) :
    ∀ k, (s.run (List.replicate k .expire)).pending.length =
      s.pending.length - checkpointRoutineSelect * k
  | 0 => rfl
  | k + 1 => by
    rw [List.replicate_succ, run, List.foldl_cons, ← run, run_expire_length _ k]
    simp only [step, start, start_length]
    rw [Nat.mul_succ]
    omega

/-- Four expiries of the timer with no candidate in between empty `pending`: every candidate the
routine ever received has then been broadcast. -/
theorem routine_drains (evs : List RoutineEvent) :
    (Routine.init.run (evs ++ List.replicate 4 .expire)).pending = [] ∧
      ∀ c ∈ candidates evs, ∃ batch ∈ (Routine.init.run (evs ++ List.replicate 4 .expire)).sent,
        c ∈ batch := by
  have hlen : (Routine.init.run (evs ++ List.replicate 4 .expire)).pending = [] := by
    rw [run, List.foldl_append, ← run, ← run, ← List.length_eq_zero, run_expire_length]
    have := (Inv.init.run evs).below
    simp only [checkpointRoutineBatch, checkpointRoutineSelect] at this ⊢
    omega
  refine ⟨hlen, fun c hc => ?_⟩
  have hcands : candidates (evs ++ List.replicate 4 .expire) = candidates evs := by
    simp [candidates, List.filterMap_append]
  have := (run_held Routine.init (evs ++ List.replicate 4 .expire)).2 c (.inr (hcands ▸ hc))
  rwa [held, hlen, List.append_nil, List.mem_flatten] at this

end Routine

end PnyxDB.Consensus.Engine
