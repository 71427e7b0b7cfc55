import Mathlib.Data.Set.Card
import Interleave.Proofs.Search

/-!
# Interleave.Proofs.Exchange.Leaves

Runs counted by the leaves of the choice tree. A run may end before a leaf, at a request to which
there is no answer, or at a smaller bound than that of the tree; it goes on to some leaf all the
same. So there are no more runs than leaves, as long as any two runs reply differently to one
request.

* `Juncture.Passes.deepen`: a walk of the tree under a smaller bound is one under a larger bound.
* `exists_runsTo`: in a finite tree each walk goes on to a leaf.
* `partsFrom_of_passes`: different replies to one request leave different traces.
* `length_le_ncard`: no more runs than maximal paths.
-/

namespace Interleave

/-- Two sequences of choices differ at a place that both have; neither is the beginning of the
other. -/
def Trace.PartsFrom (t t' : Trace) : Prop :=
  ∃ (i : Nat) (c c' : Choice), t.toList[i]? = some c ∧ t'.toList[i]? = some c' ∧ c ≠ c'

theorem Trace.PartsFrom.not_both {t t' : Trace} (h : t.PartsFrom t') {cs : List Choice}
    (hbegins : t.toList <+: cs) : ¬ t'.toList <+: cs := by
  rintro ⟨after', rfl⟩
  obtain ⟨after, hafter⟩ := hbegins
  obtain ⟨i, c, c', hc, hc', hne⟩ := h
  have heq : (t.toList ++ after)[i]? = (t'.toList ++ after')[i]? := by rw [hafter]
  rw [List.getElem?_append_left (List.getElem?_eq_some_iff.1 hc).1,
    List.getElem?_append_left (List.getElem?_eq_some_iff.1 hc').1, hc, hc'] at heq
  exact hne (Option.some.inj heq)

section Leaves

variable {σ : Type} {bound limit : Nat} {P : Program σ}

/-- A juncture under a smaller bound and the one reached by the same replies under a larger bound:
the same request, or the run goes on. -/
structure Juncture.Deepens (x y : Juncture σ Unit) : Prop where
  pause : ∀ a, x = .inl a → y = .inl a
  trace : y.session.trace = x.session.trace

theorem Juncture.Deepens.refl (x : Juncture σ Unit) : x.Deepens x := ⟨fun _ => id, rfl⟩

theorem settle_deepens
    (hlimit : ∀ n, boundReached limit n = true → boundReached bound n = true) (h : Handler σ) :
    ∀ s, (P.settle (Session.reaches bound) h s).Deepens
      (P.settle (Session.reaches limit) h s) := by
  induction h with
  | finish p =>
    intro s
    simp only [Program.settle, Program.offer, Program.schedule]
    split
    · exact .refl _
    · split
      · exact .refl _
      · split
        · refine ⟨fun a ha => (by cases ha), ?_⟩
          split <;> rfl
        · rename_i hopen
          have hopen' : ¬ Session.reaches limit s = true := fun hfull => hopen (hlimit _ hfull)
          rw [if_neg hopen']
          exact .refl _
  | abort p => exact fun s => .refl _
  | panic message => exact fun s => .refl _
  | ask q next ih =>
    intro s
    simp only [Program.settle]
    split
    · exact ih none s
    · exact .refl _
  | check holds message next ih => exact fun s => ih _ _
  | tell n next ih => exact fun s => ih _

/-- The induction is on the walk; the tree under the larger bound goes along. -/
theorem Juncture.Passes.deepen
    (hlimit : ∀ n, boundReached limit n = true → boundReached bound n = true)
    {x y : Juncture σ Unit} {es : List Exchange} (h : x.Passes bound P es y) :
    ∀ {x' : Juncture σ Unit}, x.Deepens x' → ∃ y', x'.Passes limit P es y' ∧ y.Deepens y' := by
  induction h with
  | nil => exact fun hx => ⟨_, .nil, hx⟩
  | @cons a v es y hv _ ih =>
    intro x' hx
    obtain rfl := hx.pause a rfl
    have htake : (a.take bound P v).Deepens (a.take limit P v) := by
      unfold Pause.take
      rw [resume_ok, resume_ok]
      exact settle_deepens hlimit _ _
    obtain ⟨y', hes, hy⟩ := ih htake
    exact ⟨y', .cons hv hes, hy⟩

theorem follow_of_passes {x y : Juncture σ Unit} {es : List Exchange}
    (h : x.Passes bound P es y) :
    ∃ path, path.length = es.length ∧ x.follow bound P path = some y := by
  induction h with
  | nil => exact ⟨[], rfl, follow_nil _⟩
  | @cons a v es y hv _ ih =>
    obtain ⟨path, hlength, hfollow⟩ := ih
    obtain ⟨i, hi⟩ := List.getElem?_of_mem hv
    exact ⟨i :: path, congrArg (· + 1) hlength, by rw [follow_cons, hi]; exact hfollow⟩

theorem Juncture.Passes.trace_prefix {x y : Juncture σ Unit} {es : List Exchange}
    (h : x.Passes bound P es y) :
    x.session.trace.toList <+: y.session.trace.toList := by
  obtain ⟨path, _, hfollow⟩ := follow_of_passes h
  obtain ⟨cs, hcs⟩ := follow_trace hfollow
  exact ⟨cs, hcs.symm⟩

theorem Juncture.Passes.divergence {x y : Juncture σ Unit} {es : List Exchange}
    (h : x.Passes bound P es y) : y.session.divergence = x.session.divergence := by
  obtain ⟨path, _, hfollow⟩ := follow_of_passes h
  exact follow_divergence hfollow

/-- At each request of the tree there is something to reply. -/
theorem replies_ne_nil_of_passes {y : Juncture σ Unit} {es : List Exchange}
    (h : (P.root bound).Passes bound P es y) :
    ∀ b, y = .inl b → (b.place.request P).replies ≠ [] := by
  have hsettle : ∀ (h : Handler σ) (s : Session Unit) b,
      P.settle (Session.reaches bound) h s = .inl b → (b.place.request P).replies ≠ [] :=
    fun h s b hb => (settle_open _ P (fun _ _ => rfl) h s b hb).replies_ne_nil
  have hall : ∀ {x y : Juncture σ Unit} {es : List Exchange}, x.Passes bound P es y →
      (∀ b, x = .inl b → (b.place.request P).replies ≠ []) →
      ∀ b, y = .inl b → (b.place.request P).replies ≠ [] := by
    intro x y es h
    induction h with
    | nil => exact id
    | @cons a v es y _ _ ih =>
      refine fun _ => ih fun b hb => ?_
      rw [Pause.take, resume_ok] at hb
      exact hsettle _ _ b hb
  exact hall h (hsettle _ _)

/-- A finite tree has a longest walk, also under a smaller bound. -/
theorem exists_longest_walk
    (hlimit : ∀ n, boundReached limit n = true → boundReached bound n = true)
    (hfin : {path | (P.along limit path).isSome}.Finite) :
    ∃ longest, ∀ es y, (P.root bound).Passes bound P es y → es.length ≤ longest := by
  refine ⟨hfin.toFinset.sup List.length, fun es y h => ?_⟩
  obtain ⟨y', hes, _⟩ := h.deepen hlimit (settle_deepens hlimit _ _)
  obtain ⟨path, hlength, hfollow⟩ := follow_of_passes hes
  have hmem : path ∈ {path | (P.along limit path).isSome} :=
    Option.isSome_iff_exists.2 ⟨y', hfollow⟩
  rw [← hlength]
  exact Finset.le_sup (f := List.length) (hfin.mem_toFinset.2 hmem)

/-- By induction on the exchanges for which there is still room. -/
theorem exists_leaf (hfin : {path | (P.along limit path).isSome}.Finite) {es : List Exchange}
    {y : Juncture σ Unit} (h : (P.root limit).Passes limit P es y) :
    ∃ fs r, y.Passes limit P fs (.inr r) := by
  obtain ⟨longest, hlongest⟩ := exists_longest_walk (fun _ => id) hfin
  obtain ⟨left, hleft⟩ : ∃ left, longest < left + es.length := ⟨longest + 1, by omega⟩
  induction left generalizing es y with
  | zero =>
    have hlen := hlongest es y h
    omega
  | succ left ih =>
    cases y with
    | inr r => exact ⟨[], r, .nil⟩
    | inl a =>
      obtain ⟨v, hv⟩ := List.exists_mem_of_ne_nil _ (replies_ne_nil_of_passes h a rfl)
      obtain ⟨fs, r, hfs⟩ := ih (h.append (.cons hv .nil)) (by
        rw [List.length_append, List.length_singleton]
        omega)
      exact ⟨_, r, .cons hv hfs⟩

/-- A walk goes on to a leaf, and its trace to that of the run there. -/
theorem exists_runsTo
    (hlimit : ∀ n, boundReached limit n = true → boundReached bound n = true)
    (hfin : {path | (P.along limit path).isSome}.Finite) {es : List Exchange}
    {y : Juncture σ Unit} (h : (P.root bound).Passes bound P es y) :
    ∃ path r, P.RunsTo limit path r ∧ y.session.trace.toList <+: r.2.trace.toList := by
  obtain ⟨y', hes, hy⟩ := h.deepen hlimit (settle_deepens hlimit _ _)
  obtain ⟨fs, r, hfs⟩ := exists_leaf hfin hes
  obtain ⟨path, _, hpath⟩ := follow_of_passes (hes.append hfs)
  refine ⟨path, r, hpath, ?_⟩
  rw [← hy.trace]
  exact hfs.trace_prefix

/-- Walks that give different replies after the same exchanges leave different traces. -/
theorem partsFrom_of_passes {x y y' : Juncture σ Unit} {es es' pre : List Exchange}
    {e e' : Exchange} (h : x.Passes bound P es y) (h' : x.Passes bound P es' y')
    (hpre : pre ++ [e] <+: es) (hpre' : pre ++ [e'] <+: es') (hne : e ≠ e') :
    y.session.trace.PartsFrom y'.session.trace := by
  obtain ⟨post, rfl⟩ := hpre
  obtain ⟨post', rfl⟩ := hpre'
  rw [List.append_assoc, List.singleton_append] at h h'
  obtain ⟨z, hz, hrest⟩ := h.split
  have hrest' := h'.rest hz
  cases z with
  | inr r => cases hrest.of_inr.1
  | inl a =>
    have hlast : ∀ {v : (a.place.request P).Reply} {es : List Exchange} {y : Juncture σ Unit},
        (a.take bound P v).Passes bound P es y →
        y.session.trace.toList[a.session.trace.toList.length]? = some (a.place.choice P v) := by
      intro v es y hes
      obtain ⟨cs, hcs⟩ := hes.trace_prefix
      rw [take_trace, Trace.toList_push] at hcs
      rw [← hcs, List.append_assoc, List.getElem?_append_right (Nat.le_refl _), Nat.sub_self]
      rfl
    obtain ⟨v, _, rfl, hpost⟩ := hrest.of_inl
    obtain ⟨w, _, rfl, hpost'⟩ := hrest'.of_inl
    refine ⟨_, _, _, hlast hpost, hlast hpost', fun heq => hne ?_⟩
    rw [choice_injective P a.place heq]

/-- Runs that part from each other go on to different leaves. -/
theorem length_le_ncard
    (hlimit : ∀ n, boundReached limit n = true → boundReached bound n = true)
    (hfin : {path | (P.along limit path).isSome}.Finite) {ts : List Trace}
    (hpart : ts.Pairwise Trace.PartsFrom)
    (hwalk : ∀ t ∈ ts, ∃ es y, (P.root bound).Passes bound P es y ∧ y.session.trace = t) :
    ts.length ≤ {path | P.IsMaximal limit path}.ncard := by
  have hleaf : ∀ t ∈ ts, ∃ path r, P.RunsTo limit path r ∧ t.toList <+: r.2.trace.toList := by
    intro t ht
    obtain ⟨es, y, hes, rfl⟩ := hwalk t ht
    exact exists_runsTo hlimit hfin hes
  choose! path hpath using hleaf
  have hnodup : (ts.map path).Nodup := by
    refine List.pairwise_map.2 (hpart.imp_of_mem fun {t t'} ht ht' hparts heq => ?_)
    obtain ⟨r, hr, hbegins⟩ := hpath t ht
    obtain ⟨r', hr', hbegins'⟩ := hpath t' ht'
    rw [heq] at hr
    cases hr.symm.trans hr'
    exact hparts.not_both hbegins hbegins'
  have hmaximal : {path | P.IsMaximal limit path}.Finite := hfin.subset fun path hmax => by
    obtain ⟨r, hr⟩ := hmax
    exact Option.isSome_iff_exists.2 ⟨_, hr⟩
  calc ts.length = (ts.map path).toFinset.card := by
        rw [List.toFinset_card_of_nodup hnodup, List.length_map]
    _ = ((ts.map path).toFinset : Set (List Nat)).ncard := (Set.ncard_coe_finset _).symm
    _ ≤ {path | P.IsMaximal limit path}.ncard := by
        refine Set.ncard_le_ncard (fun p hp => ?_) hmaximal
        obtain ⟨t, ht, rfl⟩ := List.mem_map.1 (List.mem_toFinset.1 hp)
        obtain ⟨r, hr, _⟩ := hpath t ht
        exact ⟨r, hr⟩

end Leaves
end Interleave
