import UdpSm.PipelineStep

/-! `UDPJubmoFrameReceiverImplementation.cpp`: the main loop, after an `Initialize` that returned 0. -/
namespace UdpSm.UDPJubmoFrameReceiverImplementation
open Pipeline Lib

inductive StreamStatusEnum where
  | waitForSession
  | transitToSession
  | inSession
deriving DecidableEq, Repr

structure Program where
  system : System
  streamState : StreamStatusEnum

/-- What a turn finds outside the program: the events polled, the time in milliseconds, the key. -/
structure Turn where
  events : List NetworkReceiverImplementationEFVI.EfEvent
  now : UInt64
  key : Option Char

def iterate (p : Program) (t : Turn) : Except Halt (Program × List Call) :=
  let c := p.system.common
  match p.streamState with
  | .waitForSession =>
    if c.applicationRunFlag ∧ ¬(c.commonFlagConnected ∧ c.commonFlagSessionIdReceived) then
      match performAll p.system
        [.readKeyboardInput t.key, .writeTimestamp t.now, .receive t.events] with
      | .error h => .error h
      | .ok (s, cs) =>
        if s.common.applicationRunFlag then
          (performAll s [.parse]).map fun r => ({ p with system := r.1 }, cs ++ r.2)
        else .ok ({ p with system := s }, cs)
    else .ok ({ p with streamState := .transitToSession }, [])
  | .transitToSession =>
    if c.applicationRunFlag ∧ c.commonFlagConnected then
      .ok ({ p with streamState := .inSession }, [])
    else .ok (p, [])
  | .inSession =>
    if c.applicationRunFlag ∧ c.commonFlagConnected then
      (performAll p.system
        [.insert t.now, .receive t.events, .parse, .readKeyboardInput t.key]).map fun r =>
          ({ p with system := r.1 }, r.2)
    else .ok (p, [])

def start (u : Unset) : Program := { system := initial u, streamState := .waitForSession }

structure Round where
  turn : Turn
  calls : List Call

def Turned (p : Program) (r : Round) (p' : Program) : Prop := iterate p r.turn = .ok (p', r.calls)

def iterateAll (p : Program) : List Turn → Except Halt (Program × List Round)
  | [] => .ok (p, [])
  | t :: ts =>
    match iterate p t with
    | .error h => .error h
    | .ok r => (iterateAll r.1 ts).map fun v => (v.1, ⟨t, r.2⟩ :: v.2)

def calls (rs : List Round) : List Call := rs.flatMap Round.calls

/-! What a turn can do. -/

structure Moved (s : System) (a : Action) (s' : System) : Prop where
  ok : perform s a = .ok s'
  well : Well s'
  next : Next s a s'

inductive Effect (p : Program) (t : Turn) : Program → List Call → Prop where
  | leave (hstate : p.streamState = .waitForSession)
      (hdone : p.system.common.applicationRunFlag = true →
        p.system.common.commonFlagConnected = true ∧
          p.system.common.commonFlagSessionIdReceived = true) :
      Effect p t { p with streamState := .transitToSession } []
  | enter (hstate : p.streamState = .transitToSession)
      (hrun : p.system.common.applicationRunFlag = true) :
      Effect p t { p with streamState := .inSession } []
  | still (hstate : p.streamState ≠ .waitForSession) : Effect p t p []
  | stop (s1 s2 s3 : System) (hstate : p.streamState = .waitForSession)
      (hwait : ¬(p.system.common.commonFlagConnected = true ∧
        p.system.common.commonFlagSessionIdReceived = true))
      (h1 : Moved p.system (.readKeyboardInput t.key) s1) (h2 : Moved s1 (.writeTimestamp t.now) s2)
      (h3 : Moved s2 (.receive t.events) s3) (hrun : s3.common.applicationRunFlag = false) :
      Effect p t { p with system := s3 } [⟨p.system, .readKeyboardInput t.key⟩,
        ⟨s1, .writeTimestamp t.now⟩, ⟨s2, .receive t.events⟩]
  | wait (s1 s2 s3 s4 : System) (hstate : p.streamState = .waitForSession)
      (hwait : ¬(p.system.common.commonFlagConnected = true ∧
        p.system.common.commonFlagSessionIdReceived = true))
      (h1 : Moved p.system (.readKeyboardInput t.key) s1) (h2 : Moved s1 (.writeTimestamp t.now) s2)
      (h3 : Moved s2 (.receive t.events) s3) (h4 : Moved s3 .parse s4) :
      Effect p t { p with system := s4 } [⟨p.system, .readKeyboardInput t.key⟩,
        ⟨s1, .writeTimestamp t.now⟩, ⟨s2, .receive t.events⟩, ⟨s3, .parse⟩]
  | session (s1 s2 s3 s4 : System) (hstate : p.streamState = .inSession)
      (hrun : p.system.common.applicationRunFlag = true)
      (h1 : Moved p.system (.insert t.now) s1) (h2 : Moved s1 (.receive t.events) s2)
      (h3 : Moved s2 .parse s3) (h4 : Moved s3 (.readKeyboardInput t.key) s4) :
      Effect p t { p with system := s4 } [⟨p.system, .insert t.now⟩, ⟨s1, .receive t.events⟩,
        ⟨s2, .parse⟩, ⟨s3, .readKeyboardInput t.key⟩]

theorem performAll_cons {s t : System} {a : Action} {as : List Action} {cs : List Call}
    (h : performAll s (a :: as) = .ok (t, cs)) : ∃ s' cs', perform s a = .ok s' ∧
      performAll s' as = .ok (t, cs') ∧ cs = ⟨s, a⟩ :: cs' := by
  rw [performAll] at h
  cases hok : perform s a with
  | error e => simp [hok] at h
  | ok s' =>
    simp only [hok] at h
    obtain ⟨r, hr, heq⟩ := map_ok h
    obtain ⟨rfl, rfl⟩ := Prod.mk.inj heq
    exact ⟨s', r.2, rfl, hr, rfl⟩

theorem performAll_nil {s t : System} {cs : List Call} (h : performAll s [] = .ok (t, cs)) :
    t = s ∧ cs = [] := by
  obtain ⟨rfl, rfl⟩ := Prod.mk.inj (Except.ok.inj h)
  exact ⟨rfl, rfl⟩

theorem moved {s s' : System} {a : Action} (hwell : Well s) (hok : perform s a = .ok s') :
    Moved s a s' := ⟨hok, (hwell.next hok).1, (hwell.next hok).2⟩

theorem iterate_effect {p p' : Program} {t : Turn} {cs : List Call} (hwell : Well p.system)
    (h : iterate p t = .ok (p', cs)) : Effect p t p' cs := by
  obtain ⟨s, streamState⟩ := p
  cases streamState with
  | waitForSession =>
    by_cases hwait : s.common.applicationRunFlag = true ∧
        ¬(s.common.commonFlagConnected = true ∧
          s.common.commonFlagSessionIdReceived = true)
    · simp only [iterate, if_pos hwait] at h
      cases hall : performAll s
          [.readKeyboardInput t.key, .writeTimestamp t.now, .receive t.events] with
      | error e => simp [hall] at h
      | ok r =>
        obtain ⟨s3, cs3⟩ := r
        simp only [hall] at h
        obtain ⟨s1, cs1, h1, hall1, rfl⟩ := performAll_cons hall
        obtain ⟨s2, cs2, h2, hall2, rfl⟩ := performAll_cons hall1
        obtain ⟨s3', cs4, h3, hall3, rfl⟩ := performAll_cons hall2
        obtain ⟨rfl, rfl⟩ := performAll_nil hall3
        have h1 := moved hwell h1
        have h2 := moved h1.well h2
        have h3 := moved h2.well h3
        by_cases hrun : s3.common.applicationRunFlag = true
        · rw [if_pos hrun] at h
          obtain ⟨⟨s', cs4⟩, hr, heq⟩ := map_ok h
          obtain ⟨s4, cs5, h4, hlast, rfl⟩ := performAll_cons hr
          obtain ⟨rfl, rfl⟩ := performAll_nil hlast
          obtain ⟨rfl, rfl⟩ := Prod.mk.inj heq
          exact .wait s1 s2 s3 s' rfl hwait.2 h1 h2 h3 (moved h3.well h4)
        · rw [if_neg hrun] at h
          obtain ⟨rfl, rfl⟩ := Prod.mk.inj (Except.ok.inj h)
          exact .stop s1 s2 s3 rfl hwait.2 h1 h2 h3 (by simpa using hrun)
    · simp only [iterate, if_neg hwait] at h
      obtain ⟨rfl, rfl⟩ := Prod.mk.inj (Except.ok.inj h)
      exact .leave rfl fun hrun => not_not.mp fun hno => hwait ⟨hrun, hno⟩
  | transitToSession =>
    simp only [iterate] at h
    split_ifs at h with hrun
    · obtain ⟨rfl, rfl⟩ := Prod.mk.inj (Except.ok.inj h)
      exact .enter rfl hrun.1
    · obtain ⟨rfl, rfl⟩ := Prod.mk.inj (Except.ok.inj h)
      exact .still nofun
  | inSession =>
    simp only [iterate] at h
    split_ifs at h with hrun
    · obtain ⟨⟨s', cs0⟩, hr, heq⟩ := map_ok h
      obtain ⟨s1, cs1, h1, hall1, rfl⟩ := performAll_cons hr
      obtain ⟨s2, cs2, h2, hall2, rfl⟩ := performAll_cons hall1
      obtain ⟨s3, cs3, h3, hall3, rfl⟩ := performAll_cons hall2
      obtain ⟨s4, cs4, h4, hall4, rfl⟩ := performAll_cons hall3
      obtain ⟨rfl, rfl⟩ := performAll_nil hall4
      obtain ⟨rfl, rfl⟩ := Prod.mk.inj heq
      have h1 := moved hwell h1
      have h2 := moved h1.well h2
      have h3 := moved h2.well h3
      exact .session s1 s2 s3 s' rfl hrun.1 h1 h2 h3 (moved h3.well h4)
    · obtain ⟨rfl, rfl⟩ := Prod.mk.inj (Except.ok.inj h)
      exact .still nofun

theorem Moved.step {s s' : System} {a : Action} (h : Moved s a s') : Run Step s [⟨s, a⟩] s' :=
  Run.single ⟨rfl, h.ok⟩

theorem Effect.run {p p' : Program} {t : Turn} {cs : List Call} (h : Effect p t p' cs) :
    Run Step p.system cs p'.system := by
  cases h with
  | leave => exact .nil
  | enter => exact .nil
  | still => exact .nil
  | stop s1 s2 s3 hstate hwait h1 h2 h3 => exact (h1.step.append h2.step).append h3.step
  | wait s1 s2 s3 s4 hstate hwait h1 h2 h3 h4 =>
    exact ((h1.step.append h2.step).append h3.step).append h4.step
  | session s1 s2 s3 s4 hstate hrun h1 h2 h3 h4 =>
    exact ((h1.step.append h2.step).append h3.step).append h4.step

theorem Effect.well {p p' : Program} {t : Turn} {cs : List Call} (hwell : Well p.system)
    (h : Effect p t p' cs) : Well p'.system := by
  cases h with
  | leave => exact hwell
  | enter => exact hwell
  | still => exact hwell
  | stop s1 s2 s3 hstate hwait h1 h2 h3 => exact h3.well
  | wait s1 s2 s3 s4 hstate hwait h1 h2 h3 h4 => exact h4.well
  | session s1 s2 s3 s4 hstate hrun h1 h2 h3 h4 => exact h4.well

theorem iterateAll_run {p p' : Program} {ts : List Turn} {rs : List Round}
    (h : iterateAll p ts = .ok (p', rs)) : Run Turned p rs p' := by
  induction ts generalizing p rs with
  | nil =>
    obtain ⟨rfl, rfl⟩ := Prod.mk.inj (Except.ok.inj h)
    exact .nil
  | cons t ts ih =>
    rw [iterateAll] at h
    cases hok : iterate p t with
    | error e => simp [hok] at h
    | ok r =>
      simp only [hok] at h
      obtain ⟨v, hv, heq⟩ := map_ok h
      obtain ⟨rfl, rfl⟩ := Prod.mk.inj heq
      have hfirst : Run Turned p [⟨t, r.2⟩] r.1 := Run.single hok
      exact hfirst.append (ih hv)

theorem exists_loop {α : Type} {p : Program} (ts : List Turn) (look : Program × List Round → α)
    {v : α} (h : (iterateAll p ts).toOption.map look = some v) :
    ∃ rs p', Run Turned p rs p' ∧ look (p', rs) = v := by
  obtain ⟨r, hr, hlook⟩ := Option.map_eq_some_iff.mp h
  exact ⟨r.2, r.1, iterateAll_run (ok_of_toOption hr), hlook⟩

/-- An invariant of the turns holds in every run of the loop. -/
theorem loop_invariant {u : Unset} {rs : List Round} {p : Program}
    (Inv : List Round → Program → Prop) (h0 : Inv [] (start u))
    (hstep : ∀ rs p r p', Well p.system → Inv rs p → Effect p r.turn p' r.calls → Inv (rs ++ [r]) p')
    (h : Run Turned (start u) rs p) : Well p.system ∧ Inv rs p := by
  refine Run.invariant (fun rs p => Well p.system ∧ Inv rs p) ⟨well_initial u, h0⟩ ?_ h
  rintro rs p r p' ⟨hwell, hinv⟩ hturned
  have heffect := iterate_effect hwell hturned
  exact ⟨heffect.well hwell, hstep rs p r p' hwell hinv heffect⟩

/-- The calls of the loop are a run of the pipeline. -/
theorem loop_run {u : Unset} {rs : List Round} {p : Program} (h : Run Turned (start u) rs p) :
    Run Step (initial u) (calls rs) p.system := by
  refine (loop_invariant (fun rs p => Run Step (initial u) (calls rs) p.system) .nil ?_ h).2
  intro rs p r p' _ hrun heffect
  have hcalls : calls (rs ++ [r]) = calls rs ++ r.calls := by simp [calls]
  rw [hcalls]
  exact hrun.append heffect.run

end UdpSm.UDPJubmoFrameReceiverImplementation
