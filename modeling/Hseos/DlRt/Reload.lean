import Hseos.Lib.Machine
import Mathlib.Data.Int.Basic
import Mathlib.Tactic.Common

/-! # Reloading a module

`update_module` closes its handle when the file has changed, and opens the file in any case. The loader
keeps one copy of a path while it is open and counts how often it was opened, so an open of a file
that is still loaded returns the old copy. Every update after which nothing has changed adds a
reference that is never closed, and from then on no change of the file is seen.
-/

namespace Hseos.DlRt

variable {V : Type*}

/-- What `stat`, `dlopen` and `dlsym` find in the versions of a module file. -/
structure Versions (V : Type*) where
  mtime : V → ℤ
  loads : V → Bool
  exports : V → Bool

/-- The loader's copy of the path with its reference count, and the calls made so far. -/
structure Loader (V : Type*) where
  loaded : Option (V × ℕ)
  opens : ℕ
  closes : ℕ

/-- `struct Module`. A handle and a function are given by the version they belong to. -/
structure Module (V : Type*) where
  handle : Option V
  modTime : ℤ
  run : Option V

/-- `dlopen` of the path: the copy that is loaded, or else the file. -/
def Loader.dlopen (versions : Versions V) (disk : V) (loader : Loader V) : Option (V × Loader V) :=
  match loader.loaded with
  | some (copy, count) =>
      some (copy, { loader with loaded := some (copy, count + 1), opens := loader.opens + 1 })
  | none =>
      if versions.loads disk then
        some (disk, { loader with loaded := some (disk, 1), opens := loader.opens + 1 })
      else none

/-- `dlclose` of a handle of the path. -/
def Loader.dlclose (loader : Loader V) : Loader V :=
  match loader.loaded with
  | some (copy, count) =>
      { loader with
        loaded := if count ≤ 1 then none else some (copy, count - 1)
        closes := loader.closes + 1 }
  | none => { loader with closes := loader.closes + 1 }

/-- `init_module`. -/
def Module.init : Module V := ⟨none, 0, none⟩

/-- The file on disk, the loader and the module. -/
structure Program (V : Type*) where
  disk : V
  loader : Loader V
  ptr : Module V

namespace Program

/-- `close_module`. -/
def closeModule (p : Program V) : Program V :=
  match p.ptr.handle with
  | some _ => { p with loader := p.loader.dlclose, ptr := { p.ptr with handle := none } }
  | none => p

/-- `need_open` of `update_module`. -/
def NeedOpen (versions : Versions V) (p : Program V) : Prop :=
  p.ptr.handle = none ∨ versions.mtime p.disk ≠ p.ptr.modTime

instance (versions : Versions V) (p : Program V) : Decidable (p.NeedOpen versions) := by
  unfold NeedOpen
  exact @instDecidableOr _ _ (decidable_of_iff (p.ptr.handle.isNone = true) Option.isNone_iff_eq_none) _

/-- `update_module`; nothing when `check_error` ends the process. -/
def updateModule (versions : Versions V) (p : Program V) : Option (Program V) := do
  let p := if p.NeedOpen versions then p.closeModule else p
  let (handle, loader) ← p.loader.dlopen versions p.disk
  if versions.exports handle then
    some { p with
      loader := loader
      ptr := ⟨some handle, versions.mtime p.disk, some handle⟩ }
  else none

end Program

/-- A replacement of the file, which changes its modification time, or a call of `update_module`. -/
inductive Event (V : Type*) where
  | replace (v : V)
  | update

/-- The program behind `init_module`, with this file on disk. -/
def Program.init (disk : V) : Program V := ⟨disk, ⟨none, 0, 0⟩, .init⟩

/-- All histories from `init_module` on. -/
def reload (versions : Versions V) : Machine (Program V) (Event V) where
  start p := ∃ disk, p = .init disk
  step p
    | .replace v => if versions.mtime v ≠ versions.mtime p.disk then some { p with disk := v } else none
    | .update => p.updateModule versions

/-- The module runs the version on disk, which was opened once more than it was closed. -/
def Program.Fresh (p : Program V) : Prop :=
  p.ptr.run = some p.disk ∧ p.loader.opens = p.loader.closes + 1

/-- An update that returns leaves the module fresh. -/
def Refreshes (versions : Versions V) (p : Program V) (event : Event V) : Prop :=
  event = .update → ∀ next, p.updateModule versions = some next → next.Fresh

/-- An update that returns has found a change. -/
def FindsChange (versions : Versions V) (p : Program V) (event : Event V) : Prop :=
  event = .update → ∀ next, p.updateModule versions = some next → p.NeedOpen versions

/-- The module holds all references of the loader: one to the copy it runs, or none at all. -/
inductive Program.Owns (p : Program V) : Prop
  | closed (handle : p.ptr.handle = none) (loaded : p.loader.loaded = none)
      (balanced : p.loader.opens = p.loader.closes)
  | opened {copy : V} (handle : p.ptr.handle = some copy) (loaded : p.loader.loaded = some (copy, 1))
      (balanced : p.loader.opens = p.loader.closes + 1)

variable {versions : Versions V} {p p' : Program V}

/-- Closing the module gives up its only reference. -/
theorem Program.Owns.close (owns : p.Owns) :
    p.closeModule.loader.loaded = none ∧
      p.closeModule.loader.opens = p.closeModule.loader.closes ∧ p.closeModule.disk = p.disk := by
  cases owns with
  | closed handle loaded balanced =>
    simp only [closeModule, handle]
    exact ⟨loaded, balanced, trivial⟩
  | opened handle loaded balanced =>
    simp only [closeModule, handle, Loader.dlclose, loaded]
    exact ⟨rfl, balanced, trivial⟩

/-- An update that finds a change loads the file and leaves one reference. -/
theorem Program.Owns.changed (owns : p.Owns) (need : p.NeedOpen versions)
    (updated : p.updateModule versions = some p') : p'.Owns ∧ p'.Fresh := by
  obtain ⟨loaded, balanced, disk⟩ := owns.close
  simp only [updateModule, if_pos need, Loader.dlopen, loaded, disk, Option.bind_eq_bind,
    Option.bind_eq_some_iff] at updated
  obtain ⟨⟨copy, loader⟩, opened, remaining⟩ := updated
  split_ifs at opened
  cases opened
  split_ifs at remaining
  cases remaining
  have count : p.closeModule.loader.opens + 1 = p.closeModule.loader.closes + 1 :=
    congrArg (· + 1) balanced
  exact ⟨.opened rfl rfl count, rfl, count⟩

/-- An update that finds no change adds a second reference. -/
theorem Program.Owns.unchanged (owns : p.Owns) (same : ¬p.NeedOpen versions)
    (updated : p.updateModule versions = some p') : ¬p'.Fresh := by
  cases owns with
  | closed handle => exact absurd (.inl handle) same
  | opened handle loaded balanced =>
    simp only [updateModule, if_neg same, Loader.dlopen, loaded, Option.bind_eq_bind,
      Option.bind_some] at updated
    split_ifs at updated
    cases updated
    rintro ⟨_, once⟩
    simp only [balanced] at once
    omega

theorem Program.Owns.replace (owns : p.Owns) (v : V) : ({ p with disk := v } : Program V).Owns := by
  cases owns with
  | closed handle loaded balanced => exact .closed handle loaded balanced
  | opened handle loaded balanced => exact .opened handle loaded balanced

/-- Of a module that holds all references, an update leaves it fresh exactly if it finds a change. -/
theorem Program.Owns.refreshes_iff (owns : p.Owns) (event : Event V) :
    Refreshes versions p event ↔ FindsChange versions p event := by
  apply imp_congr_right
  rintro -
  apply forall₂_congr
  intro next updated
  by_cases need : p.NeedOpen versions
  · exact iff_of_true (owns.changed need updated).2 need
  · exact iff_of_false (owns.unchanged need updated) need

theorem Program.Owns.step {event : Event V} (owns : p.Owns) (finds : FindsChange versions p event)
    (moved : (reload versions).step p event = some p') : p'.Owns := by
  cases event with
  | replace v =>
    simp only [reload] at moved
    split_ifs at moved
    cases moved
    exact owns.replace v
  | update => exact (owns.changed (finds rfl p' moved) moved).1

/-- Whatever the versions of the file, every update of a history leaves the module running the file on
disk, opened once more than closed, exactly if every update finds the module without a handle or the
modification time different from the one of the update before. -/
theorem reload_fresh_iff (versions : Versions V) (disk : V) (history : List (Event V)) :
    (reload versions).AllSteps (Refreshes versions) (.init disk) history ↔
      (reload versions).AllSteps (FindsChange versions) (.init disk) history :=
  Machine.allSteps_iff Program.Owns (fun _ event owns => owns.refreshes_iff event)
    (fun _ _ _ owns finds moved => owns.step finds moved) (.closed rfl rfl rfl) history

/-- Versions that are numbered by their modification times. -/
def numbered : Versions ℕ := ⟨fun v => v, fun _ => true, fun _ => true⟩

/-- A second update before the file changes keeps the old version in use behind the change. -/
theorem reload_stale :
    ¬(reload numbered).AllSteps (Refreshes numbered) (.init 1) [.update, .update, .replace 2, .update] ∧
      ∃ p, (reload numbered).run (.init 1) [.update, .update, .replace 2, .update] = some p ∧
        p.disk = 2 ∧ p.ptr.run = some 1 ∧ p.loader.opens = p.loader.closes + 2 := by
  refine ⟨?_, _, rfl, rfl, rfl, rfl⟩
  rintro ⟨-, later⟩
  obtain ⟨refreshes, -⟩ := later _ rfl
  obtain ⟨-, once⟩ := refreshes rfl _ rfl
  cases once

end Hseos.DlRt
