import Mathlib.Data.UInt
import Interleave.State.Observer

/-!
# Interleave.Proofs.State.Sums

The hashes kept with an observed state are those of its elements, and the sums are their sums.

* `sum_updateEntries`: what an update does to a sum over the values of a table.
* `Observed.Tallied`, `tallied_note`: every notice keeps the hashes and the sums up to date.
* `eq_of_told`: an observed state is determined by what the program has told.
-/

namespace Interleave
namespace Table

variable {α β : Type} [Ord α]

/-- The sum of a weight of the values. -/
def total (weight : β → UInt64) (t : Table α β) : UInt64 := (t.values.map weight).sum

theorem sum_updateEntries [Std.TransOrd α] (weight : β → UInt64) (key : α) (f : Option β → β) :
    ∀ {entries : List (α × β)}, Ascending entries →
      ((updateEntries key f entries).map fun entry => weight entry.2).sum =
        (entries.map fun entry => weight entry.2).sum -
          ((valueAt? key entries).map weight).getD 0 + weight (f (valueAt? key entries))
  | [], _ => by simp [updateEntries, valueAt?]
  | (a, b) :: rest, h => by
    have ih := sum_updateEntries weight key f (List.pairwise_cons.1 h).2
    unfold updateEntries
    split
    · rename_i hlt
      rw [valueAt?_eq_none_of_lt h hlt]
      simp only [List.map_cons, List.sum_cons, Option.map_none, Option.getD_none]
      grind
    · rename_i heq
      have hvalue : valueAt? key ((a, b) :: rest) = some b := by simp [valueAt?, heq]
      simp only [hvalue, List.map_cons, List.sum_cons, Option.map_some, Option.getD_some]
      grind
    · rename_i hgt
      have hvalue : valueAt? key ((a, b) :: rest) = valueAt? key rest := by simp [valueAt?, hgt]
      rw [hvalue, List.map_cons, List.map_cons, List.sum_cons, List.sum_cons, ih]
      grind

theorem total_insert [Std.TransOrd α] (weight : β → UInt64) (t : Table α β) (key : α) (value : β) :
    (t.insert key value).total weight =
      t.total weight - ((t.get? key).map weight).getD 0 + weight value := by
  have h := sum_updateEntries weight key (fun _ => value) t.ascending
  simpa [total, values, insert, update, get?, Function.comp_def] using h

theorem eq_of_mapValues {γ : Type} {f : β → γ} {t u : Table α β}
    (hsame : t.mapValues f = u.mapValues f)
    (hvalue : ∀ key v w, (key, v) ∈ t.entries → (key, w) ∈ u.entries → f v = f w → v = w) :
    t = u := by
  obtain ⟨entries, ht⟩ := t
  obtain ⟨entries', hu⟩ := u
  have hmap : entries.map (fun entry => (entry.1, f entry.2)) =
      entries'.map fun entry => (entry.1, f entry.2) := congrArg Table.entries hsame
  have heq : entries = entries' := by
    refine List.ext_getElem? fun i => ?_
    have hi := congrArg (·[i]?) hmap
    simp only [List.getElem?_map] at hi
    cases hx : entries[i]? with
    | none =>
      rw [hx] at hi
      exact (Option.map_eq_none_iff.1 hi.symm).symm
    | some x =>
      rw [hx] at hi
      obtain ⟨y, hy, hxy⟩ := Option.map_eq_some_iff.1 hi.symm
      obtain ⟨key, v⟩ := x
      obtain ⟨key', w⟩ := y
      obtain ⟨rfl, hvw⟩ := Prod.mk.inj hxy
      rw [hy, hvalue key' v w (List.mem_of_getElem? hx) (List.mem_of_getElem? hy) hvw.symm]
  cases heq
  rfl

end Table

namespace Observed

/-- What the program has told of its machines. -/
def toldMachines (o : Observed) : Table UnitId (List String × Option UInt64) :=
  o.machines.mapValues fun m => (m.stack, m.localHash)

/-- What the program has told of its monitors. -/
def toldMonitors (o : Observed) : Table String (String × Heat) :=
  o.monitors.mapValues fun m => (m.state, m.heat)

/-- The hashes are those of the elements, and the sums are those of the hashes. -/
structure Tallied (digest : Element → UInt64) (o : Observed) : Prop where
  machine : ∀ unit m, o.machines.get? unit = some m → m.hash = digest (m.element unit)
  monitor : ∀ name m, o.monitors.get? name = some m → m.hash = digest (m.element name)
  machineSum_eq : o.machineSum = o.machines.total (·.hash)
  monitorSum_eq : o.monitorSum = o.monitors.total (·.hash)

variable {digest : Element → UInt64} {o : Observed}

theorem tallied_empty : empty.Tallied digest where
  machine _ _ h := by cases h
  monitor _ _ h := by cases h
  machineSum_eq := rfl
  monitorSum_eq := rfl

theorem tallied_changeMachine (h : o.Tallied digest) (unit : UnitId) (f : Machine → Machine) :
    (o.changeMachine digest unit f).Tallied digest := by
  refine { h with machine := fun other m hm => ?_, machineSum_eq := ?_ }
  · simp only [changeMachine, Table.insert, Table.get?_update,
      Std.LawfulEqCmp.compare_eq_iff_eq] at hm
    split at hm
    · rename_i heq
      cases hm
      cases heq
      rfl
    · exact h.machine other m hm
  · simp only [changeMachine, Table.total_insert, h.machineSum_eq]
    cases o.machines.get? unit <;> rfl

theorem tallied_changeMonitor (h : o.Tallied digest) (name : String) (f : Monitor → Monitor) :
    (o.changeMonitor digest name f).Tallied digest := by
  refine { h with monitor := fun other m hm => ?_, monitorSum_eq := ?_ }
  · simp only [changeMonitor, Table.insert, Table.get?_update,
      Std.LawfulEqCmp.compare_eq_iff_eq] at hm
    split at hm
    · rename_i heq
      cases hm
      cases heq
      rfl
    · exact h.monitor other m hm
  · simp only [changeMonitor, Table.total_insert, h.monitorSum_eq]
    cases o.monitors.get? name <;> rfl

theorem tallied_note (h : o.Tallied digest) (n : Notice) : (o.note digest n).Tallied digest := by
  cases n with
  | enter unit state => exact tallied_changeMachine h unit (·.enter state)
  | exit unit state => exact tallied_changeMachine h unit (·.exit state)
  | localHash unit hash =>
    exact tallied_changeMachine h unit fun m => { m with localHash := some hash }
  | monitor name state heat =>
    exact tallied_changeMonitor h name fun m => { m with state, heat }
  | heat name heat => exact tallied_changeMonitor h name fun m => { m with heat }
  | log line => exact h

/-- The hashes and sums add nothing to what the program has told. -/
theorem eq_of_told {o' : Observed} (h : o.Tallied digest) (h' : o'.Tallied digest)
    (hmachines : o.toldMachines = o'.toldMachines) (hmonitors : o.toldMonitors = o'.toldMonitors) :
    o = o' := by
  have hm : o.machines = o'.machines := by
    refine Table.eq_of_mapValues hmachines fun unit m m' hmem hmem' htold => ?_
    have hhash := h.machine unit m (Table.get?_eq_some_iff.2 hmem)
    have hhash' := h'.machine unit m' (Table.get?_eq_some_iff.2 hmem')
    obtain ⟨stack, localHash, hash⟩ := m
    obtain ⟨stack', localHash', hash'⟩ := m'
    cases htold
    rw [show hash = hash' from hhash.trans hhash'.symm]
  have hn : o.monitors = o'.monitors := by
    refine Table.eq_of_mapValues hmonitors fun name m m' hmem hmem' htold => ?_
    have hhash := h.monitor name m (Table.get?_eq_some_iff.2 hmem)
    have hhash' := h'.monitor name m' (Table.get?_eq_some_iff.2 hmem')
    obtain ⟨state, heat, hash⟩ := m
    obtain ⟨state', heat', hash'⟩ := m'
    cases htold
    rw [show hash = hash' from hhash.trans hhash'.symm]
  have hmachineSum := h.machineSum_eq
  have hmonitorSum := h.monitorSum_eq
  rw [hm, ← h'.machineSum_eq] at hmachineSum
  rw [hn, ← h'.monitorSum_eq] at hmonitorSum
  obtain ⟨machines, monitors, machineSum, monitorSum⟩ := o
  obtain ⟨machines', monitors', machineSum', monitorSum'⟩ := o'
  cases hm
  cases hn
  cases hmachineSum
  cases hmonitorSum
  rfl

end Observed
end Interleave
