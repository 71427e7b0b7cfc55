import Mathlib.Algebra.BigOperators.Group.Finset.Basic
import Interleave.Proofs.State.Sums

/-!
# Interleave.Proofs.State.History

What a history of notices says of each machine and each monitor, read off the notices alone, and
the fingerprint as the sum over all of them.

* `History.stack`, `History.localHash`, `History.monitor`: the plain replay of a history.
* `Observed.Follows`, `follows_note`: an observed state holds what its history says.
* `fingerprint_eq_sum`: whatever is done with an observer, its fingerprint is the sum of the hashes
  of the elements, and depends on nothing else.
-/

namespace Interleave

namespace Table

variable {α β : Type} [Ord α] [Std.LawfulEqOrd α]

theorem nodup_keys (t : Table α β) : t.keys.Nodup := by
  have h := t.ascending
  unfold keys
  refine List.pairwise_map.2 (h.imp fun {x y} hlt heq => ?_)
  have hself : compare x.1 y.1 = .eq := heq ▸ Std.ReflCmp.compare_self
  rw [hself] at hlt
  cases hlt

theorem toNat_sum (ws : List UInt64) : ws.sum.toNat = (ws.map UInt64.toNat).sum % 2 ^ 64 := by
  induction ws with
  | nil => rfl
  | cons w ws ih => rw [List.sum_cons, List.map_cons, List.sum_cons, UInt64.toNat_add, ih,
      Nat.add_mod_mod]

/-- The values of a table summed up by their keys. -/
theorem toNat_total [DecidableEq α] {t : Table α β} {weight : β → UInt64} {f : α → UInt64}
    {keys : Finset α} (hkeys : ∀ key, (t.get? key).isSome = true ↔ key ∈ keys)
    (hweight : ∀ key value, t.get? key = some value → weight value = f key) :
    (t.total weight).toNat = (∑ key ∈ keys, (f key).toNat) % 2 ^ 64 := by
  have hvalues : t.values.map weight = t.keys.map f := by
    unfold values Table.keys
    rw [List.map_map, List.map_map]
    exact List.map_congr_left fun entry hentry => hweight _ _ (get?_eq_some_iff.2 hentry)
  have hfinset : keys = t.keys.toFinset := by
    ext key
    rw [List.mem_toFinset, mem_keys_iff, hkeys]
  rw [total, hvalues, toNat_sum, List.map_map, hfinset, List.sum_toFinset _ t.nodup_keys]
  rfl

end Table

/-- The unit whose machine a notice is about. -/
def Notice.unit? : Notice → Option UnitId
  | .enter unit _ => some unit
  | .exit unit _ => some unit
  | .localHash unit _ => some unit
  | _ => none

/-- The monitor that a notice is about. -/
def Notice.monitor? : Notice → Option String
  | .monitor name _ _ => some name
  | .heat name _ => some name
  | _ => none

/-- What a program has told, the oldest notice first. -/
abbrev History := List Notice

namespace History

def stackAfter (unit : UnitId) (stack : List String) : Notice → List String
  | .enter u state => if u = unit then state :: stack else stack
  | .exit u state => if u = unit ∧ stack.head? = some state then stack.tail else stack
  | _ => stack

def localHashAfter (unit : UnitId) (old : Option UInt64) : Notice → Option UInt64
  | .localHash u hash => if u = unit then some hash else old
  | _ => old

def monitorAfter (name : String) (old : String × Heat) : Notice → String × Heat
  | .monitor n state heat => if n = name then (state, heat) else old
  | .heat n heat => if n = name then (old.1, heat) else old
  | _ => old

/-- The states that a machine is in, the top one first. An exit that does not name the top one
changes nothing. -/
def stack (h : History) (unit : UnitId) : List String := h.foldl (stackAfter unit) []

def localHash (h : History) (unit : UnitId) : Option UInt64 := h.foldl (localHashAfter unit) none

/-- The state of a monitor and how it stands. -/
def monitor (h : History) (name : String) : String × Heat :=
  h.foldl (monitorAfter name) ("", .neutral)

/-- The units of which a machine has been told. -/
def units (h : History) : Finset UnitId := (h.filterMap Notice.unit?).toFinset

/-- The monitors of which something has been told. -/
def monitors (h : History) : Finset String := (h.filterMap Notice.monitor?).toFinset

/-- The element of a machine. -/
def machineElement (h : History) (unit : UnitId) : Element :=
  .machine unit (h.stack unit).head? (h.localHash unit)

/-- The element of a monitor. -/
def monitorElement (h : History) (name : String) : Element :=
  .monitor name (h.monitor name).1 (h.monitor name).2

/-- The sum of the hashes of all machines, monitors and enabled candidates. -/
def hashSum (digest : Element → UInt64) (h : History) (candidates : List Candidate) : Nat :=
  (∑ unit ∈ h.units, (digest (h.machineElement unit)).toNat) +
    (∑ name ∈ h.monitors, (digest (h.monitorElement name)).toNat) +
    ((enabledIds candidates).map fun unit => (digest (.enabled unit)).toNat).sum

/-- Two histories that lead to the same machines, as far as they are hashed, and the same
monitors. -/
structure Agree (h h' : History) : Prop where
  units : h.units = h'.units
  machine : ∀ unit ∈ h.units,
    (h.stack unit).head? = (h'.stack unit).head? ∧ h.localHash unit = h'.localHash unit
  monitors : h.monitors = h'.monitors
  monitor : ∀ name ∈ h.monitors, h.monitor name = h'.monitor name

theorem mem_units_concat {h : History} {n : Notice} {unit : UnitId} :
    unit ∈ units (h ++ [n]) ↔ unit ∈ h.units ∨ n.unit? = some unit := by
  simp [units]

theorem mem_monitors_concat {h : History} {n : Notice} {name : String} :
    name ∈ monitors (h ++ [n]) ↔ name ∈ h.monitors ∨ n.monitor? = some name := by
  simp [monitors]

theorem stack_concat (h : History) (n : Notice) (unit : UnitId) :
    stack (h ++ [n]) unit = stackAfter unit (h.stack unit) n := by simp [stack]

theorem localHash_concat (h : History) (n : Notice) (unit : UnitId) :
    localHash (h ++ [n]) unit = localHashAfter unit (h.localHash unit) n := by simp [localHash]

theorem monitor_concat (h : History) (n : Notice) (name : String) :
    monitor (h ++ [n]) name = monitorAfter name (h.monitor name) n := by simp [monitor]

theorem stackAfter_of_ne {n : Notice} {unit : UnitId} (hn : n.unit? ≠ some unit)
    (stack : List String) : stackAfter unit stack n = stack := by
  cases n <;> simp_all [stackAfter, Notice.unit?]

theorem localHashAfter_of_ne {n : Notice} {unit : UnitId} (hn : n.unit? ≠ some unit)
    (old : Option UInt64) : localHashAfter unit old n = old := by
  cases n <;> simp_all [localHashAfter, Notice.unit?]

theorem monitorAfter_of_ne {n : Notice} {name : String} (hn : n.monitor? ≠ some name)
    (old : String × Heat) : monitorAfter name old n = old := by
  cases n <;> simp_all [monitorAfter, Notice.monitor?]

theorem Agree.hashSum_eq {h h' : History} (hagree : h.Agree h') (digest : Element → UInt64)
    {candidates candidates' : List Candidate} (hperm : candidates.Perm candidates') :
    h.hashSum digest candidates = h'.hashSum digest candidates' := by
  have hmachines : ∑ unit ∈ h.units, (digest (h.machineElement unit)).toNat =
      ∑ unit ∈ h'.units, (digest (h'.machineElement unit)).toNat :=
    Finset.sum_congr hagree.units fun unit hunit => by
      have h := hagree.machine unit (hagree.units ▸ hunit)
      rw [machineElement, machineElement, h.1, h.2]
  have hmonitors : ∑ name ∈ h.monitors, (digest (h.monitorElement name)).toNat =
      ∑ name ∈ h'.monitors, (digest (h'.monitorElement name)).toNat :=
    Finset.sum_congr hagree.monitors fun name hname => by
      rw [monitorElement, monitorElement, hagree.monitor name (hagree.monitors ▸ hname)]
  have henabled : (enabledIds candidates).Perm (enabledIds candidates') :=
    (hperm.filter _).map _
  rw [hashSum, hashSum, hmachines, hmonitors, (henabled.map _).sum_eq]

end History

namespace Observed

/-- A machine as it is kept, or as it is made on first mention. -/
def machineOf (o : Observed) (unit : UnitId) : Machine := (o.machines.get? unit).getD .fresh

def monitorOf (o : Observed) (name : String) : Monitor := (o.monitors.get? name).getD .fresh

/-- An observed state holds what a history says: of the units and monitors it speaks of, and of no
others. -/
structure Follows (o : Observed) (h : History) : Prop where
  units : ∀ unit, (o.machines.get? unit).isSome = true ↔ unit ∈ h.units
  stack : ∀ unit, (o.machineOf unit).stack = h.stack unit
  localHash : ∀ unit, (o.machineOf unit).localHash = h.localHash unit
  monitors : ∀ name, (o.monitors.get? name).isSome = true ↔ name ∈ h.monitors
  monitor : ∀ name, ((o.monitorOf name).state, (o.monitorOf name).heat) = h.monitor name

variable {digest : Element → UInt64} {o : Observed} {h : History}

theorem follows_empty : empty.Follows [] where
  units _ := by simp [empty, History.units]
  stack _ := rfl
  localHash _ := rfl
  monitors _ := by simp [empty, History.monitors]
  monitor _ := rfl

theorem Follows.changeMachine (ho : o.Follows h) (n : Notice) {unit : UnitId}
    (f : Machine → Machine) (hunit : n.unit? = some unit) (hmonitor : n.monitor? = none)
    (hstack : ∀ m, (f m).stack = History.stackAfter unit m.stack n)
    (hlocal : ∀ m, (f m).localHash = History.localHashAfter unit m.localHash n) :
    (o.changeMachine digest unit f).Follows (h ++ [n]) := by
  have hget : ∀ other, (o.changeMachine digest unit f).machines.get? other =
      if other = unit then
        some { f (o.machineOf unit) with hash := digest ((f (o.machineOf unit)).element unit) }
      else o.machines.get? other := fun other => by
    simp only [Observed.changeMachine, Table.insert, Table.get?_update, machineOf,
      Std.LawfulEqCmp.compare_eq_iff_eq]
  have hkept : ∀ name, n.monitor? ≠ some name := by simp [hmonitor]
  refine ⟨fun other => ?_, fun other => ?_, fun other => ?_, fun name => ?_, fun name => ?_⟩
  · rw [hget, History.mem_units_concat, ← ho.units, hunit, Option.some.injEq, eq_comm (a := unit)]
    split
    · rename_i heq
      exact iff_of_true rfl (.inr heq)
    · rename_i hne
      rw [or_iff_left hne]
  · rw [machineOf, hget, History.stack_concat, ← ho.stack]
    split
    · rename_i heq
      rw [heq]
      exact hstack _
    · rename_i hne
      rw [History.stackAfter_of_ne (by simp [hunit, Ne.symm hne])]
      rfl
  · rw [machineOf, hget, History.localHash_concat, ← ho.localHash]
    split
    · rename_i heq
      rw [heq]
      exact hlocal _
    · rename_i hne
      rw [History.localHashAfter_of_ne (by simp [hunit, Ne.symm hne])]
      rfl
  · rw [History.mem_monitors_concat, ← ho.monitors]
    simp [hmonitor, Observed.changeMachine]
  · rw [History.monitor_concat, History.monitorAfter_of_ne (hkept name), ← ho.monitor]
    rfl

theorem Follows.changeMonitor (ho : o.Follows h) (n : Notice) {name : String}
    (f : Monitor → Monitor) (hunit : n.unit? = none) (hname : n.monitor? = some name)
    (hf : ∀ m, ((f m).state, (f m).heat) = History.monitorAfter name (m.state, m.heat) n) :
    (o.changeMonitor digest name f).Follows (h ++ [n]) := by
  have hget : ∀ other, (o.changeMonitor digest name f).monitors.get? other =
      if other = name then
        some { f (o.monitorOf name) with hash := digest ((f (o.monitorOf name)).element name) }
      else o.monitors.get? other := fun other => by
    simp only [Observed.changeMonitor, Table.insert, Table.get?_update, monitorOf,
      Std.LawfulEqCmp.compare_eq_iff_eq]
  have hkept : ∀ unit, n.unit? ≠ some unit := by simp [hunit]
  refine ⟨fun unit => ?_, fun unit => ?_, fun unit => ?_, fun other => ?_, fun other => ?_⟩
  · rw [History.mem_units_concat, ← ho.units]
    simp [hunit, Observed.changeMonitor]
  · rw [History.stack_concat, History.stackAfter_of_ne (hkept unit), ← ho.stack]
    rfl
  · rw [History.localHash_concat, History.localHashAfter_of_ne (hkept unit), ← ho.localHash]
    rfl
  · rw [hget, History.mem_monitors_concat, ← ho.monitors, hname, Option.some.injEq,
      eq_comm (a := name)]
    split
    · rename_i heq
      exact iff_of_true rfl (.inr heq)
    · rename_i hne
      rw [or_iff_left hne]
  · rw [monitorOf, hget, History.monitor_concat, ← ho.monitor]
    split
    · rename_i heq
      rw [heq]
      exact hf _
    · rename_i hne
      rw [History.monitorAfter_of_ne (by simp [hname, Ne.symm hne])]
      rfl

theorem follows_note (ho : o.Follows h) (n : Notice) : (o.note digest n).Follows (h ++ [n]) := by
  cases n with
  | enter unit state =>
    exact ho.changeMachine (.enter unit state) (·.enter state) rfl rfl
      (fun m => by simp [Machine.enter, History.stackAfter]) fun _ => rfl
  | exit unit state =>
    refine ho.changeMachine (.exit unit state) (·.exit state) rfl rfl (fun m => ?_) fun m => ?_
    · simp only [Machine.exit, History.stackAfter, true_and]
      split <;> rfl
    · simp only [Machine.exit, History.localHashAfter]
      split <;> rfl
  | localHash unit hash =>
    exact ho.changeMachine (.localHash unit hash) (fun m => { m with localHash := some hash })
      rfl rfl (fun _ => rfl) fun m => by simp [History.localHashAfter]
  | monitor name state heat =>
    exact ho.changeMonitor (.monitor name state heat) (fun m => { m with state, heat }) rfl rfl
      fun m => by simp [History.monitorAfter]
  | heat name heat =>
    exact ho.changeMonitor (.heat name heat) (fun m => { m with heat }) rfl rfl
      fun m => by simp [History.monitorAfter]
  | log line =>
    exact
      { units := fun unit => by
          rw [History.mem_units_concat, ← ho.units]
          simp [note, Notice.unit?]
        stack := fun unit => by rw [History.stack_concat]; exact ho.stack unit
        localHash := fun unit => by rw [History.localHash_concat]; exact ho.localHash unit
        monitors := fun name => by
          rw [History.mem_monitors_concat, ← ho.monitors]
          simp [note, Notice.monitor?]
        monitor := fun name => by rw [History.monitor_concat]; exact ho.monitor name }

theorem Follows.machineSum_eq (ho : o.Follows h) (ht : o.Tallied digest) :
    o.machineSum.toNat = (∑ unit ∈ h.units, (digest (h.machineElement unit)).toNat) % 2 ^ 64 := by
  rw [ht.machineSum_eq]
  refine Table.toNat_total ho.units fun unit m hm => ?_
  have hof : o.machineOf unit = m := by simp [machineOf, hm]
  rw [ht.machine unit m hm, History.machineElement, ← ho.stack, ← ho.localHash, hof]
  rfl

theorem Follows.monitorSum_eq (ho : o.Follows h) (ht : o.Tallied digest) :
    o.monitorSum.toNat =
      (∑ name ∈ h.monitors, (digest (h.monitorElement name)).toNat) % 2 ^ 64 := by
  rw [ht.monitorSum_eq]
  refine Table.toNat_total ho.monitors fun name m hm => ?_
  have hof : o.monitorOf name = m := by simp [monitorOf, hm]
  rw [ht.monitor name m hm, History.monitorElement, ← ho.monitor, hof]
  rfl

theorem toNat_foldl_add (f : UnitId → UInt64) (units : List UnitId) :
    ∀ sum : UInt64, (units.foldl (fun sum unit => sum + f unit) sum).toNat =
      (sum.toNat + (units.map fun unit => (f unit).toNat).sum) % 2 ^ 64 := by
  induction units with
  | nil => intro sum; exact (Nat.mod_eq_of_lt sum.toNat_lt).symm
  | cons unit units ih =>
    intro sum
    rw [List.foldl_cons, ih, UInt64.toNat_add, Nat.mod_add_mod, List.map_cons, List.sum_cons,
      Nat.add_assoc]

theorem Follows.fingerprint_eq (ho : o.Follows h) (ht : o.Tallied digest)
    (candidates : List Candidate) :
    (o.fingerprint digest candidates).toNat = h.hashSum digest candidates % 2 ^ 64 := by
  rw [fingerprint, UInt64.toNat_add, UInt64.toNat_add, toNat_foldl_add, ho.machineSum_eq ht,
    ho.monitorSum_eq ht, History.hashSum]
  simp [Nat.add_mod]

end Observed

namespace Observer

/-- What can be done with an observer: tell it something, take a snapshot, or empty it for another
run. -/
inductive Act
  | note (n : Notice)
  | capture (step : Nat) (candidates : List Candidate)
  | clear

def act (digest : Element → UInt64) (o : Observer) : Act → Observer
  | .note n => o.note digest n
  | .capture step candidates => (o.capture digest step candidates).2
  | .clear => empty

/-- The observer after a series of acts. -/
def after (digest : Element → UInt64) (acts : List Act) : Observer :=
  acts.foldl (act digest) empty

def toldAfter (h : History) : Act → History
  | .note n => h ++ [n]
  | .capture _ _ => h
  | .clear => []

/-- What has been told since the observer was last emptied. -/
def told (acts : List Act) : History := acts.foldl toldAfter []

theorem after_concat (digest : Element → UInt64) (acts : List Act) (a : Act) :
    after digest (acts ++ [a]) = (after digest acts).act digest a := by simp [after]

theorem told_concat (acts : List Act) (a : Act) : told (acts ++ [a]) = toldAfter (told acts) a := by
  simp [told]

/-- A snapshot leaves the observed state as it is, and what is told changes it as the history says.
The induction is on the acts, the last one first. -/
theorem follows_told (digest : Element → UInt64) (acts : List Act) :
    (after digest acts).observed.Follows (told acts) ∧
      (after digest acts).observed.Tallied digest := by
  induction acts using List.reverseRecOn with
  | nil => exact ⟨Observed.follows_empty, Observed.tallied_empty⟩
  | append_singleton acts a ih =>
    obtain ⟨hfollows, htallied⟩ := ih
    rw [after_concat, told_concat]
    cases a with
    | note n => exact ⟨Observed.follows_note hfollows n, Observed.tallied_note htallied n⟩
    | capture step candidates =>
      show ((after digest acts).capture digest step candidates).2.observed.Follows _ ∧
        ((after digest acts).capture digest step candidates).2.observed.Tallied digest
      rw [capture_observed]
      exact ⟨hfollows, htallied⟩
    | clear => exact ⟨Observed.follows_empty, Observed.tallied_empty⟩

/-- After any series of acts the fingerprint is the sum of the hashes of what has been told since
the observer was last emptied. So it is the same after any other series that leads to the same
machines and monitors, in whatever order the candidates are listed. -/
theorem fingerprint_eq_sum (digest : Element → UInt64) (acts : List Act)
    (candidates : List Candidate) :
    ((after digest acts).observed.fingerprint digest candidates).toNat =
      (told acts).hashSum digest candidates % 2 ^ 64 ∧
    ∀ acts' candidates', (told acts).Agree (told acts') → candidates.Perm candidates' →
      (after digest acts).observed.fingerprint digest candidates =
        (after digest acts').observed.fingerprint digest candidates' := by
  have hsum : ∀ acts candidates,
      ((after digest acts).observed.fingerprint digest candidates).toNat =
        (told acts).hashSum digest candidates % 2 ^ 64 := fun acts candidates =>
    (follows_told digest acts).1.fingerprint_eq (follows_told digest acts).2 candidates
  refine ⟨hsum acts candidates, fun acts' candidates' hagree hperm => UInt64.toNat_inj.1 ?_⟩
  rw [hsum, hsum, hagree.hashSum_eq digest hperm]

/-- A machine enters two states and leaves one, with a snapshot in between; a monitor turns hot. -/
def detour : List Act :=
  [.note (.enter ⟨1⟩ "Init"), .note (.monitor "progress" "Waiting" .neutral),
    .note (.enter ⟨1⟩ "Busy"), .capture 0 [.actor ⟨1⟩], .note (.exit ⟨1⟩ "Init"),
    .note (.exit ⟨1⟩ "Busy"), .note (.heat "progress" .hot)]

/-- The same end on a shorter way, after another run. -/
def shortcut : List Act :=
  [.note (.localHash ⟨2⟩ 7), .clear, .note (.monitor "progress" "Waiting" .hot),
    .note (.enter ⟨1⟩ "Init")]

theorem fingerprint_detour :
    (told detour).Agree (told shortcut) ∧
      [Candidate.actor ⟨1⟩, .actor ⟨2⟩].Perm [.actor ⟨2⟩, .actor ⟨1⟩] ∧
      (after Element.digest detour).observed.fingerprint Element.digest
          [.actor ⟨1⟩, .actor ⟨2⟩] =
        (after Element.digest shortcut).observed.fingerprint Element.digest
          [.actor ⟨2⟩, .actor ⟨1⟩] := by
  have hagree : (told detour).Agree (told shortcut) :=
    ⟨by decide, by decide, by decide, by decide⟩
  have hperm : [Candidate.actor ⟨1⟩, .actor ⟨2⟩].Perm [.actor ⟨2⟩, .actor ⟨1⟩] :=
    List.Perm.swap _ _ _
  exact ⟨hagree, hperm, (fingerprint_eq_sum Element.digest detour [.actor ⟨1⟩, .actor ⟨2⟩]).2
    shortcut _ hagree hperm⟩

end Observer
end Interleave
