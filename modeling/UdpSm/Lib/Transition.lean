import Mathlib.Data.List.Forall2
import Mathlib.Data.List.Induction

/-! Runs of a labelled transition relation, with the invariant rules for one run and for two. -/
namespace UdpSm.Lib
universe u v w x
variable {σ : Type u} {ε : Type v} {τ : Type w} {φ : Type x}

/-- `Run step s es t`: the labels `es`, in order, lead from `s` to `t`. -/
inductive Run (step : σ → ε → σ → Prop) (s : σ) : List ε → σ → Prop where
  | nil : Run step s [] s
  | snoc {es : List ε} {t u : σ} {e : ε} :
      Run step s es t → step t e u → Run step s (es ++ [e]) u

/-- The invariant may speak of the labels seen so far. -/
theorem Run.invariant {step : σ → ε → σ → Prop} {s t : σ} {es : List ε}
    (Inv : List ε → σ → Prop) (h0 : Inv [] s)
    (hstep : ∀ es t e u, Inv es t → step t e u → Inv (es ++ [e]) u)
    (h : Run step s es t) : Inv es t := by
  induction h with
  | nil => exact h0
  | snoc _ hs ih => exact hstep _ _ _ _ ih hs

/-- Two runs in step: what every pair of steps keeps holds at the end. -/
theorem Run.lockstep {step : σ → ε → σ → Prop} {step' : τ → φ → τ → Prop} {s t : σ} {s' t' : τ}
    {es : List ε} {fs : List φ} (Pair : ε → φ → Prop) (Rel : List ε → List φ → σ → τ → Prop)
    (h0 : Rel [] [] s s')
    (hstep : ∀ es fs t t' e f u u', Run step s es t → Run step' s' fs t' → Rel es fs t t' →
      Pair e f → step t e u → step' t' f u' → Rel (es ++ [e]) (fs ++ [f]) u u')
    (h : Run step s es t) (h' : Run step' s' fs t') (hpairs : List.Forall₂ Pair es fs) :
    Rel es fs t t' := by
  induction h generalizing fs t' with
  | nil =>
    cases hpairs
    generalize hfs : [] = fs at h'
    cases h' with
    | nil => exact h0
    | snoc _ _ => simp at hfs
  | @snoc es t u e h hs ih =>
    cases h' with
    | nil => simp at hpairs
    | @snoc fs t' u' f h' hs' =>
      have hlength : es.length = fs.length := by simpa using hpairs.length_eq
      have hfirst := List.forall₂_take_append _ _ _ hpairs
      have hlast := List.forall₂_drop_append _ _ _ hpairs
      rw [List.take_left' hlength] at hfirst
      rw [List.drop_left' hlength] at hlast
      exact hstep es fs t t' e f u _ h h' (ih h' hfirst) (List.forall₂_cons.mp hlast).1 hs hs'

theorem Run.mono {step step' : σ → ε → σ → Prop} {s t : σ} {es : List ε}
    (hstep : ∀ s e t, step s e t → step' s e t) (h : Run step s es t) : Run step' s es t := by
  induction h with
  | nil => exact .nil
  | snoc _ hlast ih => exact ih.snoc (hstep _ _ _ hlast)

theorem Run.single {step : σ → ε → σ → Prop} {s t : σ} {e : ε} (h : step s e t) :
    Run step s [e] t := .snoc .nil h

theorem Run.append {step : σ → ε → σ → Prop} {s t u : σ} {es fs : List ε}
    (h : Run step s es t) (h' : Run step t fs u) : Run step s (es ++ fs) u := by
  induction h' with
  | nil => simpa using h
  | snoc _ hs ih =>
    rw [← List.append_assoc]
    exact .snoc ih hs

theorem Run.last {step : σ → ε → σ → Prop} {s u : σ} {es : List ε} {e : ε}
    (h : Run step s (es ++ [e]) u) : ∃ t, Run step s es t ∧ step t e u := by
  generalize hes : es ++ [e] = fs at h
  cases h with
  | nil => simp at hes
  | @snoc fs t _ f h hs =>
    obtain ⟨rfl, hef⟩ := List.append_inj' hes rfl
    obtain rfl := List.singleton_inj.mp hef
    exact ⟨t, h, hs⟩

theorem Run.before {step : σ → ε → σ → Prop} {s u : σ} {es fs : List ε} {e : ε}
    (h : Run step s (es ++ e :: fs) u) : ∃ t t', Run step s es t ∧ step t e t' := by
  induction fs using List.reverseRecOn generalizing u with
  | nil =>
    obtain ⟨t, hrun, hs⟩ := h.last
    exact ⟨t, u, hrun, hs⟩
  | append_singleton fs f ih =>
    rw [← List.cons_append, ← List.append_assoc] at h
    obtain ⟨t, hrun, -⟩ := h.last
    exact ih hrun

theorem filterMap_snoc (f : ε → Option τ) (es : List ε) (e : ε) :
    (es ++ [e]).filterMap f = es.filterMap f ++ (f e).toList := by
  rw [List.filterMap_append]
  cases h : f e with
  | none => rw [List.filterMap_cons_none h]; rfl
  | some b => rw [List.filterMap_cons_some h]; rfl

theorem Run.of_foldlM {step : σ → ε → σ → Prop} {f : σ → ε → Option σ}
    (hf : ∀ s e t, f s e = some t → step s e t) {es : List ε} {s t : σ}
    (h : es.foldlM f s = some t) : Run step s es t := by
  induction es generalizing s with
  | nil =>
    obtain rfl := Option.some.inj h
    exact .nil
  | cons e es ih =>
    rw [List.foldlM_cons] at h
    obtain ⟨u, hu, hrest⟩ := Option.bind_eq_some_iff.mp h
    exact (Run.single (hf s e u hu)).append (ih hrest)

theorem Run.exists_states {step : σ → ε → σ → Prop} {s t : σ} {es : List ε} (h : Run step s es t) :
    ∃ f : Nat → σ, f 0 = s ∧ (∀ k, es.length ≤ k → f k = t) ∧
      ∀ k, (hk : k < es.length) → step (f k) es[k] (f (k+1)) := by
  induction h with
  | nil => exact ⟨fun _ => s, rfl, fun _ _ => rfl, by simp⟩
  | @snoc es t u e _ hs ih =>
    obtain ⟨f, h0, hend, hstep⟩ := ih
    refine ⟨fun k => if k ≤ es.length then f k else u, by simpa using h0, ?_, ?_⟩
    · intro k hk
      rw [List.length_append, List.length_singleton] at hk
      exact if_neg (by omega)
    · intro k hk
      rw [List.length_append, List.length_singleton] at hk
      change step (if k ≤ es.length then f k else u) _
        (if k + 1 ≤ es.length then f (k + 1) else u)
      by_cases hlast : k < es.length
      · rw [List.getElem_append_left hlast, if_pos (by omega), if_pos (by omega)]
        exact hstep k hlast
      · obtain rfl : k = es.length := by omega
        rw [if_pos (by omega), if_neg (by omega), hend _ (Nat.le_refl _)]
        simpa using hs

end UdpSm.Lib
