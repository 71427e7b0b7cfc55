import Interleave.Proofs.State.History

/-!
# Interleave.Proofs.State.Captures

What an observer keeps of the snapshots taken of it, whatever is told and whichever steps are
captured, in any order and any number of times.

* `Photographed`, `capture_of_new`, `capture_of_known`: a capture takes the snapshot of a step that
  has none yet, and changes nothing otherwise. `capture_spec`: what holds after either.
* `Observer.captured`: the steps with a snapshot in the order of their first captures, read off the
  acts alone.
* `Observer.Files`, `files_captured`: the album lists each step once, in that order, under the
  fingerprint of its snapshot. Every act keeps this.
* `Snapshot.Shows`, `look_shows`: a snapshot shows what has been told before it was taken.
* `sighting_repeated_iff`: a capture tells that a state repeats where another step shows it.
-/

namespace Interleave

attribute [ext] Sighting

/-- The photographs taken so far are kept. -/
def Observer.Extends (o o' : Observer) : Prop :=
  ∀ step state, o.snapshotAt? step = some state → o'.snapshotAt? step = some state

/-- A step gets its first photograph. -/
structure Photographed (o o' : Observer) (step : Nat) (snapshot : Snapshot) : Prop where
  new : o.snapshotAt? step = none
  observed : o'.observed = o.observed
  snapshotAt? : ∀ i, o'.snapshotAt? i = if step = i then some snapshot else o.snapshotAt? i
  occurrences : ∀ fingerprint, o'.occurrences fingerprint =
    if snapshot.fingerprint = fingerprint then (o.occurrences fingerprint).add step
    else o.occurrences fingerprint

theorem Photographed.extends {o o' : Observer} {step : Nat} {snapshot : Snapshot}
    (h : Photographed o o' step snapshot) : o.Extends o' := by
  intro i state hstate
  rw [h.snapshotAt?, if_neg, hstate]
  rintro rfl
  rw [h.new] at hstate
  cases hstate

section Capture

variable {o : Observer} {step : Nat}

theorem capture_of_new (digest : Element → UInt64) (h : o.snapshotAt? step = none)
    (candidates : List Candidate) :
    ∃ o', Photographed o o' step (o.look digest candidates) ∧
      o.capture digest step candidates =
        (o'.sighting (o.look digest candidates).fingerprint, o') := by
  have hnew : o.album.get? step = none := h
  refine ⟨{ o with album := o.album.add step (o.look digest candidates) hnew },
    ⟨h, rfl, fun i => Album.get?_add _ _ _ hnew i, fun fp => Album.occurrences_add _ _ _ hnew fp⟩,
    ?_⟩
  unfold Observer.capture
  split
  · rename_i snapshot hknown
    rw [hnew] at hknown
    cases hknown
  · rfl

theorem capture_of_known {digest : Element → UInt64} {snapshot : Snapshot}
    (h : o.snapshotAt? step = some snapshot) (candidates : List Candidate) :
    o.capture digest step candidates = (o.sighting snapshot.fingerprint, o) := by
  have hknown : o.album.get? step = some snapshot := h
  unfold Observer.capture
  split
  · rename_i other hother
    rw [hknown] at hother
    cases hother
    rfl
  · rename_i hnew
    rw [hknown] at hnew
    cases hnew

/-- After a capture its step has a snapshot, from which the answer is made; all others are as they
were. -/
theorem capture_spec (digest : Element → UInt64) (o : Observer) (step : Nat)
    (candidates : List Candidate) :
    ∃ snapshot, (o.capture digest step candidates).2.snapshotAt? step = some snapshot ∧
      (o.capture digest step candidates).1 =
        (o.capture digest step candidates).2.sighting snapshot.fingerprint ∧
      (∀ other, other ≠ step →
        (o.capture digest step candidates).2.snapshotAt? other = o.snapshotAt? other) ∧
      o.Extends (o.capture digest step candidates).2 := by
  cases hstep : o.snapshotAt? step with
  | some snapshot =>
    rw [capture_of_known hstep]
    exact ⟨snapshot, hstep, rfl, fun _ _ => rfl, fun _ _ => id⟩
  | none =>
    obtain ⟨o', hphoto, hcapture⟩ := capture_of_new digest hstep candidates
    rw [hcapture]
    refine ⟨_, ?_, rfl, fun other hne => ?_, hphoto.extends⟩
    · rw [hphoto.snapshotAt?, if_pos rfl]
    · rw [hphoto.snapshotAt?, if_neg hne.symm]

end Capture

namespace Observer

/-- The fingerprint of the snapshot of a step. -/
def fingerprintAt? (o : Observer) (step : Nat) : Option UInt64 :=
  (o.snapshotAt? step).map (·.fingerprint)

/-- The steps that have a snapshot after an act, the one captured first at the head. -/
def capturedAfter (steps : List Nat) : Act → List Nat
  | .note _ => steps
  | .capture step _ => if step ∈ steps then steps else steps ++ [step]
  | .clear => []

/-- The steps captured since the observer was last emptied, in the order of their first
captures. -/
def captured (acts : List Act) : List Nat := acts.foldl capturedAfter []

theorem captured_concat (acts : List Act) (a : Act) :
    captured (acts ++ [a]) = capturedAfter (captured acts) a := by simp [captured]

/-- The album of an observer holds the snapshots of these steps, and lists them in this order. -/
structure Files (o : Observer) (steps : List Nat) : Prop where
  nodup : steps.Nodup
  mem_iff : ∀ step, step ∈ steps ↔ (o.snapshotAt? step).isSome = true
  occurrences : ∀ fingerprint, (o.occurrences fingerprint).toList =
    steps.filter fun step => o.fingerprintAt? step == some fingerprint

section Filing

variable {digest : Element → UInt64} {o o' : Observer} {steps : List Nat} {step : Nat}

theorem files_empty : empty.Files [] where
  nodup := .nil
  mem_iff step := by simp [snapshotAt?, empty]
  occurrences fingerprint := by simp [occurrences, empty]

theorem Files.of_album_eq (h : o.Files steps) (halbum : o'.album = o.album) : o'.Files steps := by
  obtain ⟨observed, album⟩ := o'
  cases halbum
  exact ⟨h.nodup, h.mem_iff, h.occurrences⟩

theorem Files.snapshotAt?_eq_none (h : o.Files steps) (hstep : step ∉ steps) :
    o.snapshotAt? step = none := by
  rw [h.mem_iff, Option.isSome_iff_ne_none, not_not] at hstep
  exact hstep

/-- The new step is listed last, and only under the fingerprint of its snapshot. -/
theorem Files.photographed {snapshot : Snapshot} (h : o.Files steps)
    (hphoto : Photographed o o' step snapshot) : o'.Files (steps ++ [step]) := by
  have hstep : step ∉ steps := by
    rw [h.mem_iff, hphoto.new]
    exact Bool.false_ne_true
  refine ⟨?_, fun i => ?_, fun fingerprint => ?_⟩
  · rw [List.nodup_append]
    refine ⟨h.nodup, by simp, fun i hi j hj hij => hstep ?_⟩
    rwa [← List.mem_singleton.1 hj, ← hij]
  · rw [List.mem_append, List.mem_singleton, h.mem_iff, hphoto.snapshotAt?]
    by_cases hi : step = i
    · simp [hi]
    · simp [hi, Ne.symm hi]
  · have hothers : steps.filter (fun i => o'.fingerprintAt? i == some fingerprint) =
        (o.occurrences fingerprint).toList := by
      rw [h.occurrences]
      refine List.filter_congr fun i hi => ?_
      have hne : step ≠ i := by
        rintro rfl
        exact hstep hi
      rw [fingerprintAt?, hphoto.snapshotAt?, if_neg hne, fingerprintAt?]
    have hself : o'.fingerprintAt? step = some snapshot.fingerprint := by
      rw [fingerprintAt?, hphoto.snapshotAt?, if_pos rfl, Option.map_some]
    rw [List.filter_append, hothers, hphoto.occurrences]
    by_cases hfp : snapshot.fingerprint = fingerprint
    · simp [hfp, hself]
    · simp [hfp, hself]

theorem Files.capture (h : o.Files steps) (step : Nat) (candidates : List Candidate) :
    (o.capture digest step candidates).2.Files
      (capturedAfter steps (.capture step candidates)) := by
  by_cases hstep : step ∈ steps
  · obtain ⟨snapshot, hknown⟩ := Option.isSome_iff_exists.1 ((h.mem_iff step).1 hstep)
    rw [capturedAfter, if_pos hstep, capture_of_known hknown]
    exact h
  · obtain ⟨o', hphoto, hcapture⟩ := capture_of_new digest (h.snapshotAt?_eq_none hstep) candidates
    rw [capturedAfter, if_neg hstep, hcapture]
    exact h.photographed hphoto

theorem Files.act (h : o.Files steps) (a : Act) :
    (o.act digest a).Files (capturedAfter steps a) := by
  cases a with
  | note n => exact h.of_album_eq rfl
  | capture step candidates => exact h.capture step candidates
  | clear => exact files_empty

theorem files_captured (digest : Element → UInt64) (acts : List Act) :
    (after digest acts).Files (captured acts) := by
  induction acts using List.reverseRecOn with
  | nil => exact files_empty
  | append_singleton acts a ih =>
    rw [after_concat, captured_concat]
    exact ih.act a

/-- A state repeats where another step is listed beside the one that shows it. -/
theorem sighting_repeated_iff {fingerprint : UInt64}
    (hstep : o.fingerprintAt? step = some fingerprint) :
    (o.sighting fingerprint).repeated = true ↔
      ∃ other, other ≠ step ∧ o.fingerprintAt? other = some fingerprint := by
  have hlisted : ∀ i, i ∈ (o.occurrences fingerprint).toList ↔
      o.fingerprintAt? i = some fingerprint := o.album.mem_occurrences_iff fingerprint
  have hnodup : (o.occurrences fingerprint).toList.Nodup := o.album.nodup_occurrences fingerprint
  have hmem := (hlisted step).2 hstep
  have hpos : 0 < (o.occurrences fingerprint).toList.length := List.length_pos_of_mem hmem
  calc (o.sighting fingerprint).repeated = true
      ↔ 1 < (o.occurrences fingerprint).toList.length := by
        rw [sighting, decide_eq_true_eq, Occurrences.length_toList]
    _ ↔ (o.occurrences fingerprint).toList ≠ [step] := by
        constructor
        · intro hlt hone
          simp [hone] at hlt
        · intro hne
          by_contra hle
          obtain ⟨i, hi⟩ := List.length_eq_one_iff.1 (by omega :
            (o.occurrences fingerprint).toList.length = 1)
          rw [hi, List.mem_singleton] at hmem
          exact hne (hmem ▸ hi)
    _ ↔ ∃ other, other ≠ step ∧ o.fingerprintAt? other = some fingerprint := by
        rw [hnodup.ne_singleton_iff, or_iff_right (List.ne_nil_of_mem hmem)]
        simp only [hlisted, and_comm]

end Filing

section Keeping

theorem Extends.trans {o o' o'' : Observer} (h : o.Extends o') (h' : o'.Extends o'') :
    o.Extends o'' := fun step state hstate => h' step state (h step state hstate)

theorem Extends.fingerprintAt? {o o' : Observer} (h : o.Extends o') {step : Nat}
    {fingerprint : UInt64} (hstep : o.fingerprintAt? step = some fingerprint) :
    o'.fingerprintAt? step = some fingerprint := by
  obtain ⟨snapshot, hsnapshot, hfp⟩ := Option.map_eq_some_iff.1 hstep
  exact Option.map_eq_some_iff.2 ⟨snapshot, h step snapshot hsnapshot, hfp⟩

/-- Snapshots are kept until the observer is emptied. -/
theorem extends_after (digest : Element → UInt64) (acts : List Act) {later : List Act}
    (hlater : .clear ∉ later) :
    (after digest acts).Extends (after digest (acts ++ later)) := by
  induction later using List.reverseRecOn with
  | nil =>
    rw [List.append_nil]
    exact fun _ _ => id
  | append_singleton later a ih =>
    rw [List.mem_append, not_or, List.mem_singleton] at hlater
    rw [← List.append_assoc, after_concat]
    refine (ih hlater.1).trans ?_
    cases a with
    | note n => exact fun _ _ => id
    | capture step candidates =>
      obtain ⟨_, _, _, _, hextends⟩ := capture_spec digest _ step candidates
      exact hextends
    | clear => exact absurd rfl hlater.2

end Keeping
end Observer

/-- A snapshot shows what a history says: the sum of the hashes of all that has been told, the
enabled candidates, and how each monitor stands that has been told of. -/
structure Snapshot.Shows (digest : Element → UInt64) (h : History) (candidates : List Candidate)
    (s : Snapshot) : Prop where
  fingerprint : s.fingerprint.toNat = h.hashSum digest candidates % 2 ^ 64
  enabled : ∀ u, s.enabled.contains u = true ↔ u ∈ enabledIds candidates
  monitors : ∀ name, s.monitors.get? name =
    if name ∈ h.monitors then some (h.monitor name).2 else none

namespace Observer

theorem look_shows (digest : Element → UInt64) (acts : List Act) (candidates : List Candidate) :
    ((after digest acts).look digest candidates).Shows digest (told acts) candidates := by
  obtain ⟨hfollows, htallied⟩ := follows_told digest acts
  refine ⟨hfollows.fingerprint_eq htallied candidates, fun u => Collection.contains_ofList,
    fun name => ?_⟩
  have hget : ((after digest acts).look digest candidates).monitors.get? name =
      ((after digest acts).observed.monitors.get? name).map (·.heat) := Table.get?_mapValues _ _ _
  have hmonitor := hfollows.monitor name
  rw [hget]
  cases hknown : (after digest acts).observed.monitors.get? name with
  | none =>
    rw [if_neg fun hname => ?_]
    · rfl
    · have hsome := (hfollows.monitors name).2 hname
      rw [hknown] at hsome
      cases hsome
  | some m =>
    rw [if_pos ((hfollows.monitors name).1 (by rw [hknown]; rfl)), ← hmonitor]
    simp [Observed.monitorOf, hknown]

section Sightings

variable {digest : Element → UInt64} {o : Observer} {step : Nat} {candidates : List Candidate}

/-- A capture tells that the state repeats where another step has a snapshot with the same
fingerprint. -/
theorem capture_repeated_iff :
    (o.capture digest step candidates).1.repeated = true ↔ ∃ other, other ≠ step ∧
      o.fingerprintAt? other = some (o.capture digest step candidates).1.fingerprint := by
  obtain ⟨snapshot, hsnapshot, hanswer, hothers, -⟩ := capture_spec digest o step candidates
  have hstep : (o.capture digest step candidates).2.fingerprintAt? step =
      some snapshot.fingerprint := by
    rw [fingerprintAt?, hsnapshot]
    rfl
  rw [hanswer, sighting_repeated_iff hstep]
  refine exists_congr fun other => and_congr_right fun hne => ?_
  rw [fingerprintAt?, hothers other hne, fingerprintAt?]
  rfl

end Sightings

/-- The first capture of a step takes a snapshot of what has been told, which is kept until the
observer is emptied. -/
theorem capture_kept (digest : Element → UInt64) (acts : List Act) {step : Nat}
    (hstep : step ∉ captured acts) (candidates : List Candidate) :
    ∃ snapshot, snapshot.Shows digest (told acts) candidates ∧
      ((after digest acts).capture digest step candidates).1.fingerprint = snapshot.fingerprint ∧
      ∀ later, Act.clear ∉ later →
        (after digest (acts ++ .capture step candidates :: later)).snapshotAt? step =
          some snapshot := by
  have hnew := (files_captured digest acts).snapshotAt?_eq_none hstep
  obtain ⟨o', hphoto, hcapture⟩ := capture_of_new digest hnew candidates
  refine ⟨_, look_shows digest acts candidates, ?_, fun later hlater => ?_⟩
  · rw [hcapture]
    rfl
  · have hafter : after digest (acts ++ [.capture step candidates]) = o' := by
      rw [after_concat]
      exact congrArg Prod.snd hcapture
    have hextends := extends_after digest (acts ++ [.capture step candidates]) hlater
    rw [List.append_assoc, List.singleton_append, hafter] at hextends
    exact hextends step _ (by rw [hphoto.snapshotAt?, if_pos rfl])

/-- After any series of acts the album lists the steps captured since the observer was last emptied:
each once, in the order of their first captures, under the fingerprint of its snapshot. The first
capture of a step tells whether another step was captured in the same state before; its snapshot
shows what had been told by then and stays as it is. -/
theorem first_captures_filed (digest : Element → UInt64) (acts : List Act) :
    (after digest acts).Files (captured acts) ∧
    (∀ fingerprint, ((after digest acts).occurrences fingerprint).toList.Nodup) ∧
    ∀ step candidates, step ∉ captured acts →
      (((after digest acts).capture digest step candidates).1.repeated = true ↔
        ∃ other ∈ captured acts, (after digest acts).fingerprintAt? other =
          some ((after digest acts).capture digest step candidates).1.fingerprint) ∧
      ∃ snapshot, snapshot.Shows digest (told acts) candidates ∧
        ((after digest acts).capture digest step candidates).1.fingerprint =
          snapshot.fingerprint ∧
        ∀ later, Act.clear ∉ later →
          (after digest (acts ++ .capture step candidates :: later)).snapshotAt? step =
            some snapshot := by
  have hfiles := files_captured digest acts
  refine ⟨hfiles, fun fingerprint => ?_, fun step candidates hstep => ⟨?_, ?_⟩⟩
  · rw [hfiles.occurrences]
    exact hfiles.nodup.filter _
  · rw [capture_repeated_iff]
    constructor
    · rintro ⟨other, -, hother⟩
      refine ⟨other, (hfiles.mem_iff other).2 ?_, hother⟩
      obtain ⟨snapshot, hsnapshot, -⟩ := Option.map_eq_some_iff.1 hother
      rw [hsnapshot]
      rfl
    · rintro ⟨other, hmem, hother⟩
      refine ⟨other, ?_, hother⟩
      rintro rfl
      exact hstep hmem
  · exact capture_kept digest acts hstep candidates

/-- A machine is busy for a while and then as it was; the steps are captured out of order, and one
of them twice. -/
def busySpell : List Act :=
  [.note (.enter ⟨1⟩ "Idle"), .capture 7 [.actor ⟨1⟩], .note (.enter ⟨1⟩ "Busy"),
    .capture 2 [.actor ⟨1⟩], .capture 7 [.actor ⟨2⟩], .note (.exit ⟨1⟩ "Busy")]

/-- What may come after it. -/
def afterSpell : List Act := [.note (.localHash ⟨1⟩ 3), .capture 4 [], .capture 5 []]

theorem first_captures_filed_busySpell :
    captured busySpell = [7, 2] ∧ 4 ∉ captured busySpell ∧ .clear ∉ afterSpell ∧
      ((after Element.digest busySpell).capture Element.digest 4 [.actor ⟨1⟩]).1.repeated = true ∧
      ∃ snapshot, snapshot.Shows Element.digest (told busySpell) [.actor ⟨1⟩] ∧
        (after Element.digest (busySpell ++ .capture 4 [.actor ⟨1⟩] :: afterSpell)).snapshotAt? 4 =
          some snapshot := by
  have hnew : 4 ∉ captured busySpell := by decide
  have hopen : .clear ∉ afterSpell := by simp [afterSpell]
  obtain ⟨hrepeated, snapshot, hshows, -, hkept⟩ :=
    (first_captures_filed Element.digest busySpell).2.2 4 [.actor ⟨1⟩] hnew
  refine ⟨by decide, hnew, hopen, hrepeated.2 ⟨7, by decide, by decide +kernel⟩, snapshot, hshows,
    hkept _ hopen⟩

/-- A capture of a step that has a snapshot changes nothing and tells the fingerprint of that
snapshot. But it tells of a repeat where another step has been found in the same state by then, so
that its answer is that of the first capture exactly if the first one told of a repeat as well or
no other step has been found in that state since. -/
theorem capture_again (digest : Element → UInt64) (acts : List Act) {step : Nat}
    (hstep : step ∉ captured acts) (candidates : List Candidate) {later : List Act}
    (hlater : .clear ∉ later) (candidates' : List Candidate) :
    let first := (after digest acts).capture digest step candidates
    let o := after digest (acts ++ .capture step candidates :: later)
    let again := o.capture digest step candidates'
    again.2 = o ∧ again.1.fingerprint = first.1.fingerprint ∧
      (again.1.repeated = true ↔
        ∃ other, other ≠ step ∧ o.fingerprintAt? other = some first.1.fingerprint) ∧
      (again.1 = first.1 ↔ first.1.repeated = true ∨
        ∀ other, other ≠ step → o.fingerprintAt? other ≠ some first.1.fingerprint) := by
  intro first o again
  obtain ⟨snapshot, -, hfirst, hkept⟩ := capture_kept digest acts hstep candidates
  have hagain : again = (o.sighting snapshot.fingerprint, o) :=
    capture_of_known (hkept later hlater) candidates'
  have hfingerprint : again.1.fingerprint = first.1.fingerprint := by
    rw [hagain]
    exact hfirst.symm
  have hrepeated : again.1.repeated = true ↔
      ∃ other, other ≠ step ∧ o.fingerprintAt? other = some first.1.fingerprint := by
    rw [← hfingerprint]
    exact capture_repeated_iff
  have hkeeps : first.1.repeated = true → again.1.repeated = true := by
    intro hfirst
    obtain ⟨other, hne, hother⟩ := capture_repeated_iff.1 hfirst
    have hextends : (after digest acts).Extends o :=
      extends_after digest acts (List.not_mem_cons_of_ne_of_not_mem nofun hlater)
    exact hrepeated.2 ⟨other, hne, hextends.fingerprintAt? hother⟩
  refine ⟨by rw [hagain], hfingerprint, hrepeated, ?_⟩
  rw [Sighting.ext_iff, and_iff_right hfingerprint]
  cases hfirst : first.1.repeated with
  | true => simp [hkeeps hfirst]
  | false =>
    rw [Bool.eq_false_iff, ne_eq, hrepeated]
    simp

theorem capture_again_busySpell :
    4 ∉ captured busySpell ∧ .clear ∉ afterSpell ∧
      let first := (after Element.digest busySpell).capture Element.digest 4 [.actor ⟨1⟩]
      let o := after Element.digest (busySpell ++ .capture 4 [.actor ⟨1⟩] :: afterSpell)
      o.capture Element.digest 4 [] = (first.1, o) := by
  have hnew : 4 ∉ captured busySpell := by decide
  have hopen : .clear ∉ afterSpell := by simp [afterSpell]
  obtain ⟨hsame, -, -, hanswer⟩ :=
    capture_again Element.digest busySpell hnew [.actor ⟨1⟩] hopen []
  exact ⟨hnew, hopen, Prod.ext (hanswer.2 (.inl (by decide +kernel))) hsame⟩

/-- A step is captured twice, and in between another one in the same state. -/
theorem capture_again_differs :
    let acts : List Act := [.capture 0 [.actor ⟨1⟩], .capture 1 [.actor ⟨1⟩]]
    let first := empty.capture Element.digest 0 [.actor ⟨1⟩]
    let again := (after Element.digest acts).capture Element.digest 0 [.actor ⟨1⟩]
    0 ∈ captured acts ∧ first.1.repeated = false ∧ again.1.repeated = true ∧
      again.1 ≠ first.1 := by
  decide +kernel

end Observer
end Interleave
