import Mathlib.Logic.Relation

/-! Replaying event lists through a partial step function, and the rules that carry a
state predicate along every run. Nothing here depends on what the states are. -/
namespace Pintos.Kit
variable {σ ε ω : Type} (step : σ → ε → Option σ)

/-- Feed the events to `step` in order; an event that is not enabled ends the run with `none`. -/
def runs : σ → List ε → Option σ
  | s, [] => some s
  | s, e :: es => (step s e).bind (runs · es)

/-- The states that some run of `step` reaches from `init`. -/
def Reach (init s : σ) : Prop := ∃ es, runs step init es = some s

variable {step}

@[simp] theorem runs_nil (s : σ) : runs step s [] = some s := rfl

@[simp] theorem runs_cons (s : σ) (e : ε) (es : List ε) :
    runs step s (e :: es) = (step s e).bind (runs step · es) := rfl

theorem runs_append (s : σ) (es fs : List ε) :
    runs step s (es ++ fs) = (runs step s es).bind (runs step · fs) := by
  induction es generalizing s with
  | nil => rfl
  | cons e es ih =>
    cases h : step s e with
    | none => simp [h]
    | some t => simp [h, ih]

theorem runs_of_step {s t : σ} {e : ε} (h : step s e = some t) : runs step s [e] = some t := by
  simp [h]

theorem Reach.refl (s : σ) : Reach step s s := ⟨[], rfl⟩

theorem Reach.tail {init s t : σ} {e : ε} (h : Reach step init s) (he : step s e = some t) :
    Reach step init t := by
  obtain ⟨es, hs⟩ := h
  exact ⟨es ++ [e], by rw [runs_append, hs, Option.bind_some, runs_of_step he]⟩

theorem Reach.trans {a b c : σ} (hab : Reach step a b) (hbc : Reach step b c) : Reach step a c := by
  obtain ⟨es, hes⟩ := hab
  obtain ⟨fs, hfs⟩ := hbc
  exact ⟨es ++ fs, by rw [runs_append, hes, Option.bind_some, hfs]⟩

/-- A predicate that every enabled event keeps holds after every run. -/
theorem runs_inv {I : σ → Prop} (hstep : ∀ s e t, I s → step s e = some t → I t) :
    ∀ (s : σ) (es : List ε) {t : σ}, I s → runs step s es = some t → I t
  | s, [], t, hs, h => by
    cases h
    exact hs
  | s, e :: es, t, hs, h => by
    simp only [runs_cons] at h
    cases he : step s e with
    | none => simp [he] at h
    | some u =>
      rw [he, Option.bind_some] at h
      exact runs_inv hstep u es (hstep s e u hs he) h

/-- Invariant rule: true initially and kept by every enabled event. -/
theorem Reach.inv {I : σ → Prop} {init s : σ} (h0 : I init)
    (hstep : ∀ s e t, I s → step s e = some t → I t) (h : Reach step init s) : I s := by
  obtain ⟨es, hes⟩ := h
  exact runs_inv hstep init es h0 hes

/-- A reflexive, transitive relation that every enabled event allowed by `ok` moves along, from
states where `I` holds and that every such event keeps, holds between the two ends of every run
of such events. -/
theorem runs_rel_on {I : σ → Prop} {R : σ → σ → Prop} {ok : ε → Prop} (hrefl : ∀ s, R s s)
    (htrans : ∀ a b c, R a b → R b c → R a c)
    (hstep : ∀ s e t, I s → ok e → step s e = some t → I t ∧ R s t) :
    ∀ (s : σ) (es : List ε) {t : σ}, I s → (∀ e ∈ es, ok e) → runs step s es = some t →
      I t ∧ R s t
  | s, [], t, hs, _, h => by
    cases h
    exact ⟨hs, hrefl s⟩
  | s, e :: es, t, hs, hok, h => by
    simp only [runs_cons] at h
    cases he : step s e with
    | none => simp [he] at h
    | some u =>
      rw [he, Option.bind_some] at h
      obtain ⟨hu, hsu⟩ := hstep s e u hs (hok e (List.mem_cons_self ..)) he
      obtain ⟨ht, hut⟩ := runs_rel_on hrefl htrans hstep u es hu
        (fun e' h' => hok e' (List.mem_cons_of_mem _ h')) h
      exact ⟨ht, htrans s u t hsu hut⟩

/-- A reflexive, transitive relation that every enabled event moves along, from states where
`I` holds and that every event keeps, holds between the two ends of every run. -/
theorem runs_rel {I : σ → Prop} {R : σ → σ → Prop} (hrefl : ∀ s, R s s)
    (htrans : ∀ a b c, R a b → R b c → R a c)
    (hstep : ∀ s e t, I s → step s e = some t → I t ∧ R s t) (s : σ) (es : List ε) {t : σ}
    (hs : I s) (h : runs step s es = some t) : I t ∧ R s t :=
  runs_rel_on hrefl htrans (fun s e t hs _ he => hstep s e t hs he) s es hs (fun _ _ => trivial) h

/-- A counter that every enabled event raises by one when `p` counts the event, and leaves alone
otherwise, rises over a run by the number of counted events. -/
theorem runs_countP {f : σ → Nat} {p : ε → Bool}
    (hstep : ∀ s e t, step s e = some t → f t = f s + (if p e then 1 else 0)) (s : σ)
    (es : List ε) {t : σ} (h : runs step s es = some t) : f t = f s + es.countP p := by
  induction es generalizing s with
  | nil =>
    cases h
    simp
  | cons e es ih =>
    cases he : step s e with
    | none => simp [he] at h
    | some u =>
      rw [runs_cons, he, Option.bind_some] at h
      rw [ih u h, hstep s e u he, List.countP_cons]
      omega

/-- Bounded progress by a ranking measure. Where `I` holds and `goal` does not, `μ` is positive
and every enabled event either reaches `goal` or keeps `I` and lowers `μ` by one for each event
that `p` counts. Then every run with at least `μ s` counted events passes through `goal`. -/
theorem runs_reaches {I goal : σ → Prop} {μ : σ → Nat} {p : ε → Bool}
    (hpos : ∀ s, I s → ¬goal s → 0 < μ s)
    (hstep : ∀ s e t, I s → ¬goal s → step s e = some t →
      goal t ∨ (I t ∧ μ t + (if p e then 1 else 0) ≤ μ s))
    (s : σ) (es : List ε) {t : σ} (hs : I s) (h : runs step s es = some t)
    (hμ : μ s ≤ es.countP p) :
    ∃ k ≤ es.length, ∃ u, runs step s (es.take k) = some u ∧ goal u := by
  induction es generalizing s with
  | nil =>
    by_cases hg : goal s
    · exact ⟨0, Nat.le_refl _, s, rfl, hg⟩
    have hpos' := hpos s hs hg
    simp only [List.countP_nil] at hμ
    omega
  | cons e es ih =>
    by_cases hg : goal s
    · exact ⟨0, Nat.zero_le _, s, rfl, hg⟩
    cases he : step s e with
    | none => simp [he] at h
    | some u =>
      rw [runs_cons, he, Option.bind_some] at h
      rcases hstep s e u hs hg he with hu | ⟨hu, hμu⟩
      · exact ⟨1, by simp, u, by simp [he], hu⟩
      · rw [List.countP_cons] at hμ
        obtain ⟨k, hk, v, hv, hgv⟩ := ih u hu h (by omega)
        exact ⟨k + 1, by simp [hk], v, by simp [he, hv], hgv⟩

/-- The event lists each of whose events `ok` allows at the abstract state `spec` has reached
when it comes. -/
def AllowedAlong {α : Type} (ok : α → ε → Prop) (spec : α → ε → α) : α → List ε → Prop
  | _, [] => True
  | a, e :: es => ok a e ∧ AllowedAlong ok spec (spec a e) es

/-- Forward simulation with progress: when every allowed event is enabled from related states
and keeps them related to the abstract step, every allowed run completes, related to the
abstract state it ends in. -/
theorem runs_forward {α : Type} {R : σ → α → Prop} {ok : α → ε → Prop} {spec : α → ε → α}
    (hstep : ∀ s a e, R s a → ok a e → ∃ t, step s e = some t ∧ R t (spec a e)) :
    ∀ (s : σ) (a : α) (es : List ε), R s a → AllowedAlong ok spec a es →
      ∃ t, runs step s es = some t ∧ R t (es.foldl spec a)
  | s, _, [], hs, _ => ⟨s, rfl, hs⟩
  | s, a, e :: es, hs, ⟨he, hes⟩ => by
    obtain ⟨u, hu, hru⟩ := hstep s a e hs he
    obtain ⟨t, ht, hrt⟩ := runs_forward hstep u (spec a e) es hru hes
    exact ⟨t, by rw [runs_cons, hu, Option.bind_some, ht], hrt⟩

/-- Lockstep simulation of two partial machines: when related states enable the same events and
step to related states, a run of the one is defined exactly when the same run of the other is,
and their ends are related. -/
theorem runs_lockstep {α : Type} {spec : α → ε → Option α} {R : σ → α → Prop}
    (hstep : ∀ s a e, R s a → Option.Rel R (step s e) (spec a e)) :
    ∀ (s : σ) (a : α) (es : List ε), R s a → Option.Rel R (runs step s es) (runs spec a es)
  | _, _, [], h => .some h
  | s, a, e :: es, h => by
    simp only [runs_cons]
    have he := hstep s a e h
    revert he
    cases step s e with
    | none =>
      cases spec a e with
      | none => exact fun _ => .none
      | some b => exact fun he => nomatch he
    | some t =>
      cases spec a e with
      | none => exact fun he => nomatch he
      | some b =>
        intro he
        cases he with
        | some hr => exact runs_lockstep hstep t b es hr

/-- A property of the end of a run, read off the run's evaluation. -/
theorem exists_of_runs {init : σ} {es : List ε} {p : σ → Prop} [DecidablePred p]
    (h : (runs step init es).map (fun s => decide (p s)) = some true) :
    ∃ s, runs step init es = some s ∧ p s := by
  cases hr : runs step init es with
  | none => simp [hr] at h
  | some s => exact ⟨s, rfl, by simpa [hr] using h⟩

/-- A property of the end of a run that follows from one read off the run's evaluation. -/
theorem exists_of_runs_imp {init : σ} {es : List ε} {p q : σ → Prop} [DecidablePred p]
    (h : (runs step init es).map (fun s => decide (p s)) = some true)
    (hq : ∀ s, runs step init es = some s → p s → q s) : ∃ s, runs step init es = some s ∧ q s := by
  obtain ⟨s, hs, hp⟩ := exists_of_runs h
  exact ⟨s, hs, hq s hs hp⟩

/-- Feed the inputs to a machine that answers each one, and collect its answers in order. -/
def replay (step : σ → ε → σ × ω) : σ → List ε → σ × List ω
  | s, [] => (s, [])
  | s, e :: es => ((replay step (step s e).1 es).1, (step s e).2 :: (replay step (step s e).1 es).2)

/-- Lockstep simulation: when every allowed input gives the same answer from related states of
two machines and keeps them related, every list of allowed inputs does. -/
theorem replay_sim {τ ω : Type} {step : σ → ε → σ × ω} {spec : τ → ε → τ × ω} {R : σ → τ → Prop}
    {ok : ε → Prop}
    (hstep : ∀ s t e, R s t → ok e → R (step s e).1 (spec t e).1 ∧ (step s e).2 = (spec t e).2) :
    ∀ (s : σ) (t : τ) (es : List ε), R s t → (∀ e ∈ es, ok e) →
      R (replay step s es).1 (replay spec t es).1 ∧ (replay step s es).2 = (replay spec t es).2
  | s, t, [], hst, _ => ⟨hst, rfl⟩
  | s, t, e :: es, hst, hok => by
    obtain ⟨hr, he⟩ := hstep s t e hst (hok e (List.mem_cons_self ..))
    obtain ⟨hr', hes⟩ := replay_sim hstep _ _ es hr fun e' h => hok e' (List.mem_cons_of_mem _ h)
    simp only [replay]
    exact ⟨hr', by rw [he, hes]⟩

end Pintos.Kit
