import UdpSm.Lib.Circular
import UdpSm.Lib.Transition

/-! The reserve/commit protocol of a single writer over a circular region. The writer
announces the end of what it is about to fill, fills it, and then publishes it by moving
the commit position; a block is safe to read while it lies in `[reserve - n, commit)`. -/
namespace UdpSm.Lib
universe u
variable {α : Type u} {base n : Nat}

structure Log (α : Type u) where
  mem : Memory α
  reserve : Nat
  commit : Nat
  published : List (Chunk α)

namespace Log
open Chunk

inductive Step (base n : Nat) : Log α → Log α → Prop where
  | announce {s : Log α} (m : Memory α) (r : Nat) :
      Agree base n s.mem m → s.reserve ≤ r → Step base n s { s with mem := m, reserve := r }
  | fill {s : Log α} (d : Chunk α) :
      d.Fits n → s.commit ≤ d.start → d.stop ≤ s.reserve →
      Step base n s { s with mem := s.mem.store (base + d.start % n) d.body }
  | publish {s : Log α} (m : Memory α) (k : Nat) (cs : List (Chunk α)) :
      Agree base n s.mem m → s.commit ≤ k → k ≤ s.reserve →
      (∀ c ∈ cs, c.Fits n ∧ s.commit ≤ c.start ∧ c.stop ≤ k ∧ c.Stored base n s.mem) →
      Step base n s { s with mem := m, commit := k, published := s.published ++ cs }

structure Safe (base n : Nat) (s : Log α) : Prop where
  order : s.commit ≤ s.reserve
  behind : ∀ c ∈ s.published, c.Fits n ∧ c.stop ≤ s.commit
  intact : ∀ c ∈ s.published, s.reserve ≤ c.start + n → c.Stored base n s.mem

theorem Safe.step {s t : Log α} (hn : 0 < n) (h : Safe base n s) (hs : Step base n s t) :
    Safe base n t := by
  cases hs with
  | announce m r ha hr =>
    refine ⟨Nat.le_trans h.order hr, h.behind, ?_⟩
    intro c hc hw
    exact (h.intact c hc (Nat.le_trans hr hw)).agree (h.behind c hc).1 ha
  | fill d _ h1 h2 =>
    refine ⟨h.order, h.behind, ?_⟩
    intro c hc hw
    have hb := (h.behind c hc).2
    exact (h.intact c hc hw).store hn (Nat.le_trans hb h1) (Nat.le_trans h2 hw)
  | publish m k cs ha h1 h2 hcs =>
    refine ⟨h2, ?_, ?_⟩
    · intro c hc
      obtain hc | hc := List.mem_append.mp hc
      · exact ⟨(h.behind c hc).1, Nat.le_trans (h.behind c hc).2 h1⟩
      · exact ⟨(hcs c hc).1, (hcs c hc).2.2.1⟩
    · intro c hc hw
      obtain hc | hc := List.mem_append.mp hc
      · exact (h.intact c hc hw).agree (h.behind c hc).1 ha
      · exact (hcs c hc).2.2.2.agree (hcs c hc).1 ha

theorem step_monotone {s t : Log α} (h : Step base n s t) :
    s.reserve ≤ t.reserve ∧ s.commit ≤ t.commit ∧ s.published <+: t.published := by
  cases h with
  | announce m r _ hr => exact ⟨hr, Nat.le_refl _, List.prefix_refl _⟩
  | fill d _ _ _ => exact ⟨Nat.le_refl _, Nat.le_refl _, List.prefix_refl _⟩
  | publish m k cs _ h1 _ _ => exact ⟨Nat.le_refl _, h1, List.prefix_append _ _⟩

theorem step_later {s t : Log α} (h : Step base n s t) {c : Chunk α} (hc : c ∈ t.published) :
    c ∈ s.published ∨ s.commit ≤ c.start := by
  cases h with
  | announce m r _ _ => exact .inl hc
  | fill d _ _ _ => exact .inl hc
  | publish m k cs _ _ _ hcs => exact (List.mem_append.mp hc).imp_right fun h => (hcs c h).2.1

def Within (base n : Nat) (st : Memory.Store α) : Prop :=
  st.address + st.bytes.length ≤ base ∨
    (base ≤ st.address ∧ st.address + st.bytes.length ≤ base + n)

structure Wrote (base n : Nat) (P : Log α → Prop) (s : Log α) (st : Memory.Store α) (t : Log α) :
    Prop where
  step : Step base n s t
  within : Within base n st
  mem : t.mem = s.mem.apply st
  holds : P t

theorem run_wrote {P : Log α → Prop} {s t : Log α} {es : List (Memory.Store α)} (hs : P s)
    (h : Run (Wrote base n P) s es t) : P t ∧ ∀ st ∈ es, Within base n st := by
  induction h with
  | nil => exact ⟨hs, by simp⟩
  | snoc _ hstep ih =>
    refine ⟨hstep.holds, fun st hst => ?_⟩
    obtain hst | hst := List.mem_append.mp hst
    · exact ih.2 st hst
    · exact List.mem_singleton.mp hst ▸ hstep.within

/-- Consecutive pieces of a block inside the announced space are fills. -/
theorem run_fills {P : Log α → Prop} {s : Log α} {p : Nat} {parts : List (List α)}
    (hP : ∀ m : Memory α, (∀ i, i < base → m.cell i = s.mem.cell i) → P { s with mem := m })
    (hne : ∀ xs ∈ parts, xs ≠ []) (hfit : p % n + parts.flatten.length ≤ n) (h1 : s.commit ≤ p)
    (h2 : p + parts.flatten.length ≤ s.reserve) :
    Run (Wrote base n P) s (Memory.sequential (base + p % n) parts)
      { s with mem := s.mem.store (base + p % n) parts.flatten } := by
  rw [← Memory.applyAll_sequential]
  induction parts generalizing s p with
  | nil => exact .nil
  | cons xs parts ih =>
    rw [List.flatten_cons, List.length_append] at hfit h2
    have hbelow : ∀ i, i < base → (s.mem.store (base + p % n) xs).cell i = s.mem.cell i :=
      fun i hi => Memory.cell_store_outside _ _ _ _ (by omega)
    have hwithin : p % n + xs.length ≤ n := by omega
    have hreserved : p + xs.length + parts.flatten.length ≤ s.reserve := by omega
    have hinside : base + p % n + xs.length ≤ base + n := by omega
    have hstep : Wrote base n P s ⟨base + p % n, xs⟩
        { s with mem := s.mem.store (base + p % n) xs } :=
      ⟨.fill ⟨p, xs⟩ hwithin h1 (Nat.le_trans (Nat.le_add_right _ _) hreserved),
        .inr ⟨Nat.le_add_right _ _, hinside⟩, rfl, hP _ hbelow⟩
    cases parts with
    | nil => exact .single hstep
    | cons ys parts =>
      have hys := List.length_pos_iff.mpr (hne ys (by simp))
      have hlt : p % n + xs.length < n := by
        rw [List.flatten_cons, List.length_append] at hfit
        omega
      have hmod : (p + xs.length) % n = p % n + xs.length := by
        have hshort : xs.length < n := by omega
        rw [Nat.add_mod, Nat.mod_eq_of_lt hshort, Nat.mod_eq_of_lt hlt]
      have hrest := @ih { s with mem := s.mem.store (base + p % n) xs } (p + xs.length)
        (fun m hm => hP m fun i hi => (hm i hi).trans (hbelow i hi))
        (fun zs hz => hne zs (List.mem_cons_of_mem xs hz)) (by omega)
        (Nat.le_trans h1 (Nat.le_add_right p xs.length))
        hreserved
      rw [hmod, ← Nat.add_assoc] at hrest
      exact (Run.single hstep).append hrest

/-- Behaviours: one protocol step, or none, at each tick. -/
def Behaviour (base n : Nat) (s : Nat → Log α) : Prop :=
  ∀ i, Step base n (s i) (s (i+1)) ∨ s (i+1) = s i

theorem exists_behaviour {P : Log α → Prop} {s t : Log α} {es : List (Memory.Store α)} (hs : P s)
    (h : Run (Wrote base n P) s es t) :
    ∃ f : Nat → Log α, Behaviour base n f ∧ f 0 = s ∧ (∀ k, es.length ≤ k → f k = t) ∧
      ∀ k, P (f k) ∧ (f k).mem = s.mem.applyAll (es.take k) := by
  obtain ⟨f, h0, hend, hstep⟩ := h.exists_states
  refine ⟨f, ?_, h0, hend, ?_⟩
  · intro k
    by_cases hk : k < es.length
    · exact .inl (hstep k hk).step
    · exact .inr (by rw [hend k (by omega), hend (k + 1) (by omega)])
  · intro k
    induction k with
    | zero => simpa [h0] using hs
    | succ k ih =>
      by_cases hk : k < es.length
      · refine ⟨(hstep k hk).holds, ?_⟩
        rw [(hstep k hk).mem, ih.2, List.take_succ_eq_append_getElem hk, Memory.applyAll_append]
        rfl
      · rw [hend (k + 1) (by omega), ← hend k (by omega), ih.2, List.take_of_length_le (by omega),
          List.take_of_length_le (by omega)]
        exact ⟨ih.1, rfl⟩

theorem Behaviour.safe {s : Nat → Log α} (hn : 0 < n) (hb : Behaviour base n s)
    (h0 : Safe base n (s 0)) (i : Nat) : Safe base n (s i) := by
  induction i with
  | zero => exact h0
  | succ i ih =>
    obtain hs | hs := hb i
    · exact ih.step hn hs
    · rwa [hs]

theorem Behaviour.monotone {s : Nat → Log α} (hb : Behaviour base n s) {i j : Nat} (hij : i ≤ j) :
    (s i).reserve ≤ (s j).reserve ∧ (s i).commit ≤ (s j).commit ∧
      (s i).published <+: (s j).published := by
  induction hij with
  | refl => exact ⟨Nat.le_refl _, Nat.le_refl _, List.prefix_refl _⟩
  | @step j _ ih =>
    obtain hs | hs := hb j
    · have hm := step_monotone hs
      exact ⟨Nat.le_trans ih.1 hm.1, Nat.le_trans ih.2.1 hm.2.1, ih.2.2.trans hm.2.2⟩
    · rwa [hs]

theorem Behaviour.later {s : Nat → Log α} (hb : Behaviour base n s) {i j : Nat} (hij : i ≤ j)
    {c : Chunk α} (hc : c ∈ (s j).published) : c ∈ (s i).published ∨ (s i).commit ≤ c.start := by
  induction hij with
  | refl => exact .inl hc
  | @step j hij ih =>
    obtain hs | hs := hb j
    · obtain hc | hc := step_later hs hc
      · exact ih hc
      · exact .inr (Nat.le_trans (hb.monotone hij).2.1 hc)
    · exact ih (hs ▸ hc)

/-- A reader that finds `c` published at tick `a`, copies its cells at any ticks between `a`
and `b`, and finds `c` still inside the announced window at `b`, has copied `c`. -/
theorem Behaviour.read {s : Nat → Log α} (hn : 0 < n) (hb : Behaviour base n s)
    (h0 : Safe base n (s 0)) {a b : Nat} {c : Chunk α} (hc : c ∈ (s a).published)
    (hw : (s b).reserve ≤ c.start + n) (at' : Nat → Nat)
    (hat : ∀ i, a ≤ at' i ∧ at' i ≤ b) (i : Nat) (hi : i < c.body.length) :
    (s (at' i)).mem.cell (base + c.start % n + i) = c.body[i] := by
  have hmem : c ∈ (s (at' i)).published := (hb.monotone (hat i).1).2.2.subset hc
  have hres := (hb.monotone (hat i).2).1
  have hst := (hb.safe hn h0 (at' i)).intact c hmem (Nat.le_trans hres hw)
  exact (Memory.load_eq_iff _ _ _).mp hst i hi

end Log
end UdpSm.Lib
