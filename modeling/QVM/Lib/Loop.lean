import QVM.Lib.Lockstep

/-!
# Loops with a measure

A loop body either stops with an error, finishes with a result or goes on with a new state.

* `Loop.run` — the loop as a total function, for a body that lowers a measure.
* `Path body s ts t` — the loop has gone from `s` to `t`, turning once in each state of `ts`.
* `run_eq_iff` — the loop ends in `x` iff some path leads to a state whose turn ends in `x`.
* `Path.invariant` — what holds at the start and survives a turn holds all along; `Path.split`,
  `Path.head`, `Path.last` — a path taken apart at one of its turns, at the first one or at the last
  one; `Path.fold` — what the turns of a path update.
* `Path.unique`, `Path.mem_of_end` — a path that has come to an end is the only one, and passes
  every state that is reached.
* `run_ensures`, `run_lockstep`, `run_matched` — what the turns keep, of one loop or of two side by
  side, the runs keep.
* `Path.congr`, `run_congr` — bodies that agree in the states of an invariant make the same paths
  and the same runs.
-/

set_option autoImplicit false

namespace Loop

variable {ε ρ σ ρ' σ' : Type}

/-- Turn until the body stops. -/
def run (body : σ → Except ε (ρ ⊕ σ)) (μ : σ → Nat)
    (hμ : ∀ s t, body s = .ok (.inr t) → μ t < μ s) (s : σ) : Except ε ρ :=
  match _h : body s with
  | .error e => .error e
  | .ok (.inl r) => .ok r
  | .ok (.inr t) => run body μ hμ t
termination_by μ s
decreasing_by exact hμ s t _h

/-- The states a loop has turned in, and the one it is in. -/
inductive Path (body : σ → Except ε (ρ ⊕ σ)) (s : σ) : List σ → σ → Prop where
  | nil : Path body s [] s
  | snoc {ts : List σ} {t t' : σ} :
      Path body s ts t → body t = .ok (.inr t') → Path body s (ts ++ [t]) t'

variable {body : σ → Except ε (ρ ⊕ σ)}

theorem Path.cons {s s' t : σ} {ts : List σ} (h : body s = .ok (.inr s'))
    (hp : Path body s' ts t) : Path body s (s :: ts) t := by
  induction hp with
  | nil => exact .snoc .nil h
  | snoc _ ht ih => exact .snoc ih ht

/-- A path taken apart at one of its turns. -/
theorem Path.split {s t u : σ} {us vs : List σ} (hp : Path body s (us ++ u :: vs) t) :
    Path body s us u ∧ ∃ u', body u = .ok (.inr u') ∧ Path body u' vs t := by
  generalize hts : us ++ u :: vs = ts at hp
  induction hp generalizing vs with
  | nil => cases us <;> cases hts
  | @snoc ts t t' hp ht ih =>
    rcases List.eq_nil_or_concat vs with rfl | ⟨vs, v, rfl⟩
    · obtain ⟨rfl, hu⟩ := List.append_inj' hts rfl
      cases hu
      exact ⟨hp, t', ht, .nil⟩
    · have hassoc : (us ++ u :: vs) ++ [v] = ts ++ [t] := by simpa using hts
      obtain ⟨rfl, hv⟩ := List.append_inj' hassoc rfl
      cases hv
      obtain ⟨hus, u', hu, hvs⟩ := ih rfl
      rw [List.concat_eq_append]
      exact ⟨hus, u', hu, .snoc hvs ht⟩

/-- The last turn of a path. -/
theorem Path.last {s t u : σ} {us : List σ} (hp : Path body s (us ++ [u]) t) :
    Path body s us u ∧ body u = .ok (.inr t) := by
  generalize hts : us ++ [u] = ts at hp
  cases hp with
  | nil => simp at hts
  | snoc hp ht =>
    obtain ⟨rfl, hu⟩ := List.append_inj' hts rfl
    cases hu
    exact ⟨hp, ht⟩

/-- A path without turns stays where it is. -/
theorem Path.stays {s t : σ} (hp : Path body s [] t) : t = s := by
  generalize hts : ([] : List σ) = ts at hp
  cases hp with
  | nil => rfl
  | snoc => simp at hts

/-- The first turn of a path. -/
theorem Path.head {s t u : σ} {us : List σ} (hp : Path body s (u :: us) t) :
    u = s ∧ ∃ u', body s = .ok (.inr u') ∧ Path body u' us t := by
  obtain ⟨hnil, u', hu, hus⟩ := @Path.split _ _ _ _ s t u [] us hp
  cases hnil.stays
  exact ⟨rfl, u', hu, hus⟩

/-- Two paths from one state that have both come to an end are the same. -/
theorem Path.unique {s t u : σ} {ts us : List σ} (hp : Path body s ts t) (hq : Path body s us u)
    (ht : ∀ t', body t ≠ .ok (.inr t')) (hu : ∀ u', body u ≠ .ok (.inr u')) :
    ts = us ∧ t = u := by
  induction ts generalizing s us with
  | nil =>
    cases hp.stays
    cases us with
    | nil => exact ⟨rfl, hq.stays.symm⟩
    | cons v us =>
      obtain ⟨_, u', hv, _⟩ := hq.head
      exact absurd hv (ht u')
  | cons v ts ih =>
    obtain ⟨rfl, t', hv, hts⟩ := hp.head
    cases us with
    | nil =>
      cases hq.stays
      exact absurd hv (hu t')
    | cons w us =>
      obtain ⟨rfl, u', hw, hus⟩ := hq.head
      cases hv.symm.trans hw
      obtain ⟨rfl, rfl⟩ := ih hts hus
      exact ⟨rfl, rfl⟩

/-- Whatever is reached lies on the path that comes to an end. -/
theorem Path.mem_of_end {s t u : σ} {ts us : List σ} (hp : Path body s ts t)
    (ht : ∀ t', body t ≠ .ok (.inr t')) (hq : Path body s us u) : u ∈ ts ++ [t] := by
  induction hq with
  | nil =>
    cases ts with
    | nil => simp [hp.stays]
    | cons v ts =>
      obtain ⟨rfl, _⟩ := hp.head
      exact List.mem_cons_self
  | @snoc us v v' _ hv ih =>
    rcases List.mem_append.mp ih with hmem | hmem
    · -- the turn is one of those of the path, and the next state begins what is left of it
      obtain ⟨as, bs, rfl⟩ := List.append_of_mem hmem
      obtain ⟨_, w, hw, hbs⟩ := hp.split
      cases hv.symm.trans hw
      cases bs with
      | nil => simp [hbs.stays]
      | cons b bs =>
        obtain ⟨rfl, _⟩ := hbs.head
        simp
    · cases List.mem_singleton.mp hmem
      exact absurd hv (ht v')

/-- **Invariant rule.** -/
theorem Path.invariant {s t : σ} {ts : List σ} (P : List σ → σ → Prop) (h0 : P [] s)
    (hstep : ∀ ts t t', Path body s ts t → P ts t → body t = .ok (.inr t') → P (ts ++ [t]) t')
    (hp : Path body s ts t) : P ts t := by
  induction hp with
  | nil => exact h0
  | snoc hp ht ih => exact hstep _ _ _ hp ih ht

/-- What each turn updates by what it reads off its state is, after a path, all the updates in
turn. -/
theorem Path.fold {γ δ : Type} {view : σ → γ} {read : σ → Option δ} {update : γ → δ → γ}
    (h : ∀ s t, body s = .ok (.inr t) → view t = (read s).elim (view s) (update (view s)))
    {s t : σ} {ts : List σ} (hp : Path body s ts t) :
    view t = (ts.filterMap read).foldl update (view s) := by
  induction hp with
  | nil => rfl
  | @snoc ts t t' _ ht ih =>
    rw [h t t' ht, List.filterMap_append, List.foldl_append, ← ih]
    cases hr : read t <;> simp [hr]

/-- A path of one body is a path of another that does the same in the states of an invariant. -/
theorem Path.congr {body' : σ → Except ε (ρ ⊕ σ)} {I : σ → Prop}
    (hI : ∀ s t, I s → body s = .ok (.inr t) → I t) (hbody : ∀ s, I s → body' s = body s) {s t : σ}
    {ts : List σ} (h : I s) (hp : Path body s ts t) : Path body' s ts t ∧ I t := by
  induction hp with
  | nil => exact ⟨.nil, h⟩
  | snoc _ ht ih => exact ⟨ih.1.snoc ((hbody _ ih.2).trans ht), hI _ _ ih.2 ht⟩

section Run

variable {μ : σ → Nat} {hμ : ∀ s t, body s = .ok (.inr t) → μ t < μ s}

theorem run_of_error {s : σ} {e : ε} (h : body s = .error e) : run body μ hμ s = .error e := by
  rw [run]; split <;> simp_all

theorem run_of_inl {s : σ} {r : ρ} (h : body s = .ok (.inl r)) : run body μ hμ s = .ok r := by
  rw [run]; split <;> simp_all

theorem run_of_inr {s t : σ} (h : body s = .ok (.inr t)) :
    run body μ hμ s = run body μ hμ t := by
  rw [run]; split <;> simp_all

theorem Path.run_eq {s t : σ} {ts : List σ} (hp : Path body s ts t) :
    run body μ hμ s = run body μ hμ t := by
  induction hp with
  | nil => rfl
  | snoc _ ht ih => rw [ih, run_of_inr ht]

theorem run_of_end {t : σ} {x : Except ε ρ} (h : body t = x.map .inl) : run body μ hμ t = x := by
  cases x with
  | error e => exact run_of_error h
  | ok r => exact run_of_inl h

/-- Every run is a path to a state whose turn is the last. -/
theorem exists_path (s : σ) :
    ∃ ts t, Path body s ts t ∧ body t = (run body μ hμ s).map .inl := by
  induction s using (measure μ).wf.induction with
  | _ s ih =>
    cases h : body s with
    | error e => exact ⟨[], s, .nil, by rw [run_of_error h, h]; rfl⟩
    | ok r =>
      cases r with
      | inl r => exact ⟨[], s, .nil, by rw [run_of_inl h, h]; rfl⟩
      | inr t =>
        obtain ⟨ts, u, hp, hu⟩ := ih t (hμ s t h)
        exact ⟨s :: ts, u, .cons h hp, by rw [run_of_inr h, hu]⟩

/-- **A loop ends in `x` iff a path leads to a turn that does.** -/
theorem run_eq_iff {s : σ} {x : Except ε ρ} :
    run body μ hμ s = x ↔ ∃ ts t, Path body s ts t ∧ body t = x.map .inl := by
  constructor
  · rintro rfl
    exact exists_path s
  · rintro ⟨ts, t, hp, ht⟩
    rw [hp.run_eq, run_of_end ht]

/-- A run from a state in `I`, which the turns keep, returns in `P`. -/
theorem run_ensures {I : σ → Prop} {P : ρ → Prop}
    (hbody : ∀ t, I t → Ensures (Sum.elim P I) (body t)) {s : σ} (h : I s) :
    Ensures P (run body μ hμ s) := by
  induction s using (measure μ).wf.induction with
  | _ s ih =>
    cases hs : body s with
    | error e => rw [run_of_error hs]; exact .error
    | ok r =>
      have hr := hbody s h r hs
      cases r with
      | inl r => rw [run_of_inl hs]; exact .ok hr
      | inr t => rw [run_of_inr hs]; exact ih t (hμ s t hs) hr

/-- A loop whose body does what another one does, in the states of an invariant, runs like it. -/
theorem run_congr {body' : σ → Except ε (ρ ⊕ σ)} {μ' : σ → Nat}
    {hμ' : ∀ s t, body' s = .ok (.inr t) → μ' t < μ' s} {I : σ → Prop}
    (hI : ∀ s t, I s → body s = .ok (.inr t) → I t) (hbody : ∀ s, I s → body' s = body s) {s : σ}
    (h : I s) : run body' μ' hμ' s = run body μ hμ s := by
  induction s using (measure μ).wf.induction with
  | _ s ih =>
    cases hs : body s with
    | error e => rw [run_of_error hs, run_of_error ((hbody s h).trans hs)]
    | ok r =>
      cases r with
      | inl r => rw [run_of_inl hs, run_of_inl ((hbody s h).trans hs)]
      | inr t =>
        rw [run_of_inr hs, run_of_inr ((hbody s h).trans hs)]
        exact ih t (hμ s t hs) (hI s t h hs)

/-- **Simulation rule**: turns in lockstep make loops in lockstep. -/
theorem run_lockstep {body' : σ' → Except ε (ρ' ⊕ σ')} {μ' : σ' → Nat}
    {hμ' : ∀ s t, body' s = .ok (.inr t) → μ' t < μ' s} {xl : ε → Prop}
    {R : σ → σ' → Prop} {Q : ρ → ρ' → Prop} {I : σ' → Prop} {P : ρ' → Prop}
    (hbody : ∀ s s', R s s' → Lockstep xl (Sum.elim P I) (Sum.LiftRel Q R) (body s) (body' s'))
    (halone : ∀ t, I t → Ensures (Sum.elim P I) (body' t)) {s : σ} {s' : σ'} (hR : R s s') :
    Lockstep xl P Q (run body μ hμ s) (run body' μ' hμ' s') := by
  induction s using (measure μ).wf.induction generalizing s' with
  | _ s ih =>
    have hb := hbody s s' hR
    cases h : body s with
    | error e =>
      rw [run_of_error h]
      rcases hb.error_left h with he | h'
      · -- the first loop stops here, the second goes on alone
        refine .left he ?_
        rw [h] at hb
        cases h' : body' s' with
        | error e' => rw [run_of_error h']; exact .error
        | ok r' =>
          rw [h'] at hb
          cases hb with
          | left _ hP =>
            have hr := hP r' rfl
            cases r' with
            | inl r' => rw [run_of_inl h']; exact .ok hr
            | inr t' => rw [run_of_inr h']; exact run_ensures halone hr
      · rw [run_of_error h']
        exact .same e
    | ok r =>
      obtain ⟨r', h', hq⟩ := hb.ok_left h
      cases hq with
      | inl hq => rw [run_of_inl h, run_of_inl h']; exact .ret hq
      | inr hq => rw [run_of_inr h, run_of_inr h']; exact ih _ (hμ _ _ h) hq

/-- **Comparison rule**: where the turns match, the runs do. -/
theorem run_matched {body' : σ' → Except ε (ρ' ⊕ σ')} {μ' : σ' → Nat}
    {hμ' : ∀ s t, body' s = .ok (.inr t) → μ' t < μ' s} {R : σ → σ' → Prop} {Q : ρ → ρ' → Prop}
    (hbody : ∀ s s', R s s' → Matched (Sum.LiftRel Q R) (body s) (body' s')) {s : σ} {s' : σ'}
    (hR : R s s') : Matched Q (run body μ hμ s) (run body' μ' hμ' s') := by
  induction s using (measure μ).wf.induction generalizing s' with
  | _ s ih =>
    cases h : body s with
    | error e =>
      rw [run_of_error h]
      exact .left
    | ok r =>
      cases h' : body' s' with
      | error e =>
        rw [run_of_error h']
        exact .right
      | ok r' =>
        cases hbody s s' hR r r' h h' with
        | inl hq =>
          rw [run_of_inl h, run_of_inl h']
          exact .ret hq
        | inr hq =>
          rw [run_of_inr h, run_of_inr h']
          exact ih _ (hμ _ _ h) hq

end Run

end Loop
