import UdpSm.Lib.FreeList
import UdpSm.ReceiverCapacity

/-! The packet buffers of the receiver: in the pool, posted to the interface, or reported by it. -/
namespace UdpSm.NetworkReceiverImplementationEFVI
open Lib RingFIFOBuffer

def pktPoolSize : UInt32 := (1 : UInt32) <<< 15
def refillBatchSize : Nat := 16

/-- `PacketBuffer_t`; a pointer to one is its number in `mem`. -/
structure PacketBuffer where
  id : UInt32
  next : Option Nat

structure PktBuffers where
  mem : Nat → PacketBuffer
  freePool : Option Nat
  freePoolN : Int

/-- The receive ring of the interface: its capacity, and the ids posted and not yet reported. -/
structure EfVi where
  capacity : Nat
  posted : List UInt32

def receiveFillLevel (vi : EfVi) : Int := vi.posted.length
def receiveSpace (vi : EfVi) : Int := vi.capacity - receiveFillLevel vi

/-- `VirtualInterfaceResource_t`; the prefix length and `pkt_mem.num` are with the receiver. -/
structure VirtualInterfaceResource where
  receiver : Receiver
  vi : EfVi
  pktMem : PktBuffers
  maxFillLevel : Int

/-! `InitPktsMemory`. -/

def configBuffer (v : VirtualInterfaceResource) (bufferNumber : UInt32) :
    Int × VirtualInterfaceResource :=
  if bufferNumber < v.receiver.num then
    (0,
      { v with
        pktMem :=
          { mem := Function.update v.pktMem.mem bufferNumber.toNat ⟨bufferNumber, v.pktMem.freePool⟩
            freePool := some bufferNumber.toNat
            freePoolN := v.pktMem.freePoolN + 1 } })
  else (-1, v)

def configBuffers : Nat → UInt32 → Int × VirtualInterfaceResource → Int × VirtualInterfaceResource
  | 0, _, r => r
  | remaining+1, i, r => if r.1 = 0 then configBuffers remaining (i + 1) (configBuffer r.2 i) else r

/-- With the result of `posix_memalign`. `EfMemIsAllocated` comes back with the resource. -/
def initPktsMemory (efViIsAllocated efMemIsAllocated : Bool) (posixMemalign : Int)
    (v : VirtualInterfaceResource) : Int × Bool × VirtualInterfaceResource :=
  let v := { v with receiver.num := pktPoolSize }
  if efViIsAllocated ∧ ¬efMemIsAllocated then
    if posixMemalign = 0 then
      let v := { v with pktMem.mem := fun _ => ⟨0, none⟩ }
      let r := configBuffers pktPoolSize.toNat 0 (0, v)
      (r.1, true, r.2)
    else (posixMemalign, efMemIsAllocated, v)
  else (-1, efMemIsAllocated, v)

/-! `RefillRxRing` and `PktBufFree`. -/

/-- The next buffer of the pool goes to the interface. An empty pool is a null pointer. -/
def postBuffer (v : VirtualInterfaceResource) : Except Halt VirtualInterfaceResource :=
  match v.pktMem.freePool with
  | none => .error .outOfBounds
  | some p => .ok
    { v with
      pktMem.freePool := (v.pktMem.mem p).next
      pktMem.freePoolN := v.pktMem.freePoolN - 1
      vi.posted := v.vi.posted ++ [(v.pktMem.mem p).id] }

def postBuffers : Nat → VirtualInterfaceResource → Except Halt VirtualInterfaceResource
  | 0, v => .ok v
  | n+1, v =>
    match postBuffer v with
    | .error h => .error h
    | .ok v => postBuffers n v

def refillLoop : Nat → VirtualInterfaceResource → Except Halt VirtualInterfaceResource
  | 0, _ => .error .spins
  | rounds+1, v =>
    match postBuffers refillBatchSize v with
    | .error h => .error h
    | .ok v =>
      if receiveFillLevel v.vi < v.maxFillLevel - refillBatchSize then refillLoop rounds v else .ok v

def refillRxRing (v : VirtualInterfaceResource) : Except Halt VirtualInterfaceResource :=
  if receiveSpace v.vi < refillBatchSize then .ok v else refillLoop pktPoolSize.toNat v

def pktBufFree (m : PktBuffers) (p : Nat) : PktBuffers :=
  { mem := Function.update m.mem p { m.mem p with next := m.freePool }
    freePool := some p
    freePoolN := m.freePoolN + 1 }

def EfEvent.rqIds : EfEvent → List UInt32
  | .rx ev => [ev.rqId]
  | .rxDiscard rqId => [rqId]
  | .other => []

/-- An event with the pool: a handler that returns 0 has freed the buffer, one that returns an
error has not. -/
def handleAndFree (common : CommonData) (ring0 : Ringbuffer) (v : VirtualInterfaceResource)
    (e : EfEvent) : Except Halt (Int × VirtualInterfaceResource) :=
  match handleEvent ⟨common, v.receiver, ring0⟩ e with
  | .error h => .error h
  | .ok (rv, x) => .ok (rv,
    { v with
      receiver := x.receiver
      pktMem :=
        if rv = 0 then e.rqIds.foldl (fun m id => pktBufFree m id.toNat) v.pktMem else v.pktMem })

/-! The turns of `IterateInternalEFVI`: poll, handle what was reported, refill. -/

structure PoolState where
  resource : VirtualInterfaceResource
  pending : List EfEvent

def PoolState.pendingIds (s : PoolState) : List UInt32 := s.pending.flatMap EfEvent.rqIds

/-- `ef_eventq_poll` reports ids that are posted, each once; the flags and ring buffer 0 are as the
rest of the program leaves them. A handler that returns an error ends the run. -/
inductive PoolTurn where
  | poll (events : List EfEvent)
  | handle (common : CommonData) (ring0 : Ringbuffer)
  | refill

inductive PoolStep : PoolState → PoolTurn → PoolState → Prop where
  | poll (v : VirtualInterfaceResource) (events : List EfEvent) (left : List UInt32)
      (hmax : events.length ≤ 32)
      (hposted : v.vi.posted.Perm (left ++ events.flatMap EfEvent.rqIds)) :
      PoolStep ⟨v, []⟩ (.poll events) ⟨{ v with vi.posted := left }, events⟩
  | handle (common : CommonData) (ring0 : Ringbuffer) (v v' : VirtualInterfaceResource)
      (e : EfEvent) (events : List EfEvent) (hok : handleAndFree common ring0 v e = .ok (0, v')) :
      PoolStep ⟨v, e :: events⟩ (.handle common ring0) ⟨v', events⟩
  | refill (v v' : VirtualInterfaceResource) (hok : refillRxRing v = .ok v') :
      PoolStep ⟨v, []⟩ .refill ⟨v', []⟩

def zeroed (receiver : Receiver) (capacity : Nat) : VirtualInterfaceResource :=
  { receiver := receiver
    vi := ⟨capacity, []⟩
    pktMem := ⟨fun _ => ⟨0, none⟩, none, 0⟩
    maxFillLevel := capacity }

/-! Where the buffers are. -/

def PktBuffers.freeList (m : PktBuffers) : FreeList Nat :=
  ⟨fun p => (m.mem p).next, m.freePool, m.freePoolN⟩

/-- Every id is in the free pool, posted, or reported and not yet handled: in exactly one of them,
and once. -/
def Conserved (s : PoolState) : Prop :=
  ∃ pool : List Nat, s.resource.pktMem.freeList.Lists pool ∧
    (pool ++ s.resource.vi.posted.map UInt32.toNat ++ s.pendingIds.map UInt32.toNat).Perm
      (List.range pktPoolSize.toNat)

structure PoolInv (capacity : Nat) (s : PoolState) : Prop where
  conserved : Conserved s
  ids : ∀ p < pktPoolSize.toNat, (s.resource.pktMem.mem p).id.toNat = p
  ring : s.resource.vi.capacity = capacity
  maxFillLevel : s.resource.maxFillLevel = capacity
  posted : s.resource.vi.posted.length ≤ capacity

section Init
variable {v : VirtualInterfaceResource} {pool : List Nat}

theorem configBuffer_ok {n : Nat} (hn : n < v.receiver.num.toNat) : ∃ m : PktBuffers,
    configBuffer v (UInt32.ofNat n) = (0, { v with pktMem := m }) ∧
      m.freeList = v.pktMem.freeList.push n ∧
      m.mem = Function.update v.pktMem.mem n ⟨UInt32.ofNat n, v.pktMem.freePool⟩ := by
  have hnum := v.receiver.num.toNat_lt
  have hword : (UInt32.ofNat n).toNat = n := Nat.mod_eq_of_lt (by omega)
  have hlt : UInt32.ofNat n < v.receiver.num := by
    rw [UInt32.lt_iff_toNat_lt, hword]
    exact hn
  refine ⟨_, if_pos hlt, ?_, by rw [hword]⟩
  rw [PktBuffers.freeList, FreeList.push, hword]
  congr 1
  funext p
  by_cases hp : p = n
  · subst hp
    simp only [Function.update_self, PktBuffers.freeList]
  · simp only [Function.update_of_ne hp, PktBuffers.freeList]

theorem configBuffers_ok {n : Nat} (remaining : Nat) (hn : n + remaining = v.receiver.num.toNat)
    (hlists : v.pktMem.freeList.Lists pool) (hperm : pool.Perm (List.range n))
    (hids : ∀ p < n, (v.pktMem.mem p).id.toNat = p) : ∃ m pool',
    configBuffers remaining (UInt32.ofNat n) (0, v) = (0, { v with pktMem := m }) ∧
      m.freeList.Lists pool' ∧ pool'.Perm (List.range (n + remaining)) ∧
      ∀ p < n + remaining, (m.mem p).id.toNat = p := by
  induction remaining generalizing n v pool with
  | zero => exact ⟨v.pktMem, pool, rfl, hlists, hperm, hids⟩
  | succ remaining ih =>
    obtain ⟨m, hconfig, hpush, hmem⟩ := configBuffer_ok (v := v) (n := n) (by omega)
    have hfresh : n ∉ pool := fun hin => absurd (hperm.mem_iff.mp hin) List.not_mem_range_self
    have hlists' : m.freeList.Lists (n :: pool) := hpush ▸ hlists.push hfresh
    have hperm' : (n :: pool).Perm (List.range (n + 1)) := by
      rw [List.range_succ]
      exact (hperm.cons n).trans (List.perm_append_singleton n _).symm
    have hids' : ∀ p < n + 1, (m.mem p).id.toNat = p := by
      intro p hp
      rw [hmem]
      by_cases hpn : p = n
      · subst hpn
        have hnum := v.receiver.num.toNat_lt
        rw [Function.update_self]
        exact Nat.mod_eq_of_lt (by omega)
      · rw [Function.update_of_ne hpn]
        exact hids p (by omega)
    have hnext : UInt32.ofNat n + 1 = UInt32.ofNat (n + 1) := (UInt32.ofNat_add n 1).symm
    obtain ⟨m', pool', hrest, hdone⟩ := ih (v := { v with pktMem := m }) (n := n + 1)
      (by rw [← hn]; omega) hlists' hperm' hids'
    rw [configBuffers, if_pos rfl, hconfig, hnext, hrest]
    rw [show n + (remaining + 1) = n + 1 + remaining by omega]
    exact ⟨m', pool', rfl, hdone⟩

theorem initPktsMemory_inv (receiver : Receiver) (capacity : Nat) : ∃ v,
    initPktsMemory true false 0 (zeroed receiver capacity) = (0, true, v) ∧ PoolInv capacity ⟨v, []⟩ := by
  obtain ⟨m, pool, hconfig, hlists, hperm, hids⟩ := configBuffers_ok
    (v := { zeroed receiver capacity with receiver.num := pktPoolSize }) (n := 0)
    pktPoolSize.toNat (Nat.zero_add _) (FreeList.lists_nil rfl rfl) (List.Perm.refl []) (by simp)
  rw [Nat.zero_add] at hperm hids
  have hinit : initPktsMemory true false 0 (zeroed receiver capacity) =
      (0, true, { zeroed receiver capacity with receiver.num := pktPoolSize, pktMem := m }) := by
    have hzero : UInt32.ofNat 0 = 0 := rfl
    simp only [zeroed, hzero] at hconfig
    simp only [initPktsMemory, zeroed]
    rw [if_pos (by simp), if_pos trivial, hconfig]
  refine ⟨_, hinit, ⟨pool, hlists, ?_⟩, hids, rfl, rfl, Nat.zero_le _⟩
  simpa [zeroed, PoolState.pendingIds] using hperm

end Init

/-! One buffer at a time. -/
section Step
variable {v v' : VirtualInterfaceResource} {capacity : Nat} {pending : List EfEvent}

theorem Conserved.length {s : PoolState} (h : Conserved s) : ∃ pool : List Nat,
    s.resource.pktMem.freeList.Lists pool ∧
      pool.length + s.resource.vi.posted.length + s.pendingIds.length = pktPoolSize.toNat := by
  obtain ⟨pool, hlists, hperm⟩ := h
  have hlength := hperm.length_eq
  simp only [List.length_append, List.length_map, List.length_range] at hlength
  exact ⟨pool, hlists, hlength⟩

theorem PoolInv.postBuffer (h : PoolInv capacity ⟨v, pending⟩) (hroom : v.vi.posted.length < capacity)
    (hpool : capacity + (pending.flatMap EfEvent.rqIds).length ≤ pktPoolSize.toNat) : ∃ v',
    NetworkReceiverImplementationEFVI.postBuffer v = .ok v' ∧ PoolInv capacity ⟨v', pending⟩ ∧
      v'.vi.posted.length = v.vi.posted.length + 1 := by
  obtain ⟨pool, hlists, hperm⟩ := h.conserved
  have hlength := hperm.length_eq
  simp only [List.length_append, List.length_map, List.length_range, PoolState.pendingIds] at hlength
  cases pool with
  | nil =>
    rw [List.length_nil] at hlength
    omega
  | cons p pool =>
    have hhead : v.pktMem.freePool = some p := hlists.linked.1
    have hp : p < pktPoolSize.toNat := List.mem_range.mp (hperm.mem_iff.mp (by simp))
    have hid := h.ids p hp
    refine ⟨_, by rw [NetworkReceiverImplementationEFVI.postBuffer, hhead], ?_, ?_⟩
    · refine ⟨⟨pool, hlists.pop.2, ?_⟩, h.ids, h.ring, h.maxFillLevel, ?_⟩
      · refine List.Perm.trans ?_ hperm
        simp only [List.map_append, List.map_cons, List.map_nil, hid, List.append_assoc,
          List.cons_append, List.nil_append]
        rw [← List.append_assoc, ← List.append_assoc]
        exact List.perm_middle
      · simp only [List.length_append, List.length_singleton]
        omega
    · simp only [List.length_append, List.length_singleton]

theorem PoolInv.postBuffers (n : Nat) (h : PoolInv capacity ⟨v, pending⟩)
    (hroom : v.vi.posted.length + n ≤ capacity)
    (hpool : capacity + (pending.flatMap EfEvent.rqIds).length ≤ pktPoolSize.toNat) : ∃ v',
    NetworkReceiverImplementationEFVI.postBuffers n v = .ok v' ∧ PoolInv capacity ⟨v', pending⟩ ∧
      v'.vi.posted.length = v.vi.posted.length + n := by
  induction n generalizing v with
  | zero => exact ⟨v, rfl, h, rfl⟩
  | succ n ih =>
    obtain ⟨u, hpost, hu, hlength⟩ := h.postBuffer (by omega) hpool
    obtain ⟨v', hrest, hinv, hlength'⟩ := ih hu (by omega)
    rw [NetworkReceiverImplementationEFVI.postBuffers, hpost]
    exact ⟨v', hrest, hinv, by omega⟩

theorem postBuffers_add {m n : Nat} (h : postBuffers m v = .ok v') :
    postBuffers (m + n) v = postBuffers n v' := by
  induction m generalizing v with
  | zero =>
    obtain rfl := Except.ok.inj h
    rw [Nat.zero_add]
  | succ m ih =>
    rw [postBuffers] at h
    rw [Nat.add_right_comm, postBuffers]
    cases hpost : postBuffer v with
    | error e => simp [hpost] at h
    | ok u =>
      simp only [hpost] at h ⊢
      exact ih h

/-- The loop ends, having posted no more than the ring takes and all but a batch of it. -/
theorem PoolInv.refillLoop {rounds : Nat} (h : PoolInv capacity ⟨v, pending⟩)
    (hroom : v.vi.posted.length + refillBatchSize ≤ capacity)
    (hrounds : capacity ≤ v.vi.posted.length + refillBatchSize * rounds)
    (hpool : capacity + (pending.flatMap EfEvent.rqIds).length ≤ pktPoolSize.toNat) : ∃ n v',
    NetworkReceiverImplementationEFVI.refillLoop rounds v = .ok v' ∧
      NetworkReceiverImplementationEFVI.postBuffers n v = .ok v' ∧
      v.vi.posted.length + n ≤ capacity ∧
      capacity ≤ v.vi.posted.length + n + refillBatchSize := by
  induction rounds generalizing v with
  | zero =>
    unfold refillBatchSize at hroom hrounds
    omega
  | succ rounds ih =>
    obtain ⟨u, hpost, hu, hlength⟩ := h.postBuffers refillBatchSize hroom hpool
    rw [NetworkReceiverImplementationEFVI.refillLoop, hpost]
    simp only []
    have hmax : u.maxFillLevel = capacity := hu.maxFillLevel
    have hlevel : receiveFillLevel u.vi < u.maxFillLevel - refillBatchSize ↔
        u.vi.posted.length + refillBatchSize < capacity := by
      rw [receiveFillLevel, hmax]
      omega
    by_cases hmore : u.vi.posted.length + refillBatchSize < capacity
    · obtain ⟨n, v', hloop, hrest, hn, hfull⟩ := ih hu (by omega)
        (by rw [hlength]; unfold refillBatchSize at hrounds ⊢; omega)
      refine ⟨refillBatchSize + n, v', ?_, ?_, by omega, by omega⟩
      · rw [if_pos (hlevel.mpr hmore)]
        exact hloop
      · rw [postBuffers_add hpost]
        exact hrest
    · refine ⟨refillBatchSize, u, ?_, hpost, hroom, by omega⟩
      rw [if_neg (fun hlt => hmore (hlevel.mp hlt))]

theorem PoolInv.refillRxRing (h : PoolInv capacity ⟨v, pending⟩)
    (hpool : capacity + (pending.flatMap EfEvent.rqIds).length ≤ pktPoolSize.toNat) : ∃ n v',
    NetworkReceiverImplementationEFVI.refillRxRing v = .ok v' ∧
      NetworkReceiverImplementationEFVI.postBuffers n v = .ok v' ∧
      v.vi.posted.length + n ≤ capacity ∧
      capacity ≤ v.vi.posted.length + n + refillBatchSize := by
  have hspace : receiveSpace v.vi < refillBatchSize ↔
      ¬v.vi.posted.length + refillBatchSize ≤ capacity := by
    have hring : v.vi.capacity = capacity := h.ring
    rw [receiveSpace, receiveFillLevel, hring]
    omega
  unfold NetworkReceiverImplementationEFVI.refillRxRing
  by_cases hroom : v.vi.posted.length + refillBatchSize ≤ capacity
  · rw [if_neg (fun hlt => hspace.mp hlt hroom)]
    refine h.refillLoop hroom ?_ hpool
    unfold refillBatchSize
    omega
  · rw [if_pos (hspace.mpr hroom)]
    exact ⟨0, v, rfl, rfl, h.posted, by omega⟩

theorem PoolInv.poll (h : PoolInv capacity ⟨v, []⟩) {events : List EfEvent} {left : List UInt32}
    (hposted : v.vi.posted.Perm (left ++ events.flatMap EfEvent.rqIds)) :
    PoolInv capacity ⟨{ v with vi.posted := left }, events⟩ := by
  obtain ⟨pool, hlists, hperm⟩ := h.conserved
  have hlength := hposted.length_eq
  have hbound := h.posted
  rw [List.length_append] at hlength
  refine ⟨⟨pool, hlists, ?_⟩, h.ids, h.ring, h.maxFillLevel, ?_⟩
  · refine List.Perm.trans ?_ hperm
    have hids := hposted.map UInt32.toNat
    rw [List.map_append] at hids
    simp only [PoolState.pendingIds, List.flatMap_nil, List.map_nil, List.append_nil,
      List.append_assoc]
    exact hids.symm.append_left pool
  · change left.length ≤ capacity
    change v.vi.posted.length ≤ capacity at hbound
    omega

theorem freeList_pktBufFree (m : PktBuffers) (p : Nat) :
    (pktBufFree m p).freeList = m.freeList.push p := by
  rw [PktBuffers.freeList, pktBufFree, FreeList.push]
  congr 1
  funext j
  by_cases hj : j = p
  · subst hj
    simp only [Function.update_self, PktBuffers.freeList]
  · simp only [Function.update_of_ne hj, PktBuffers.freeList]

theorem id_pktBufFree (m : PktBuffers) (p j : Nat) : ((pktBufFree m p).mem j).id = (m.mem j).id := by
  by_cases hj : j = p
  · subst hj
    simp only [pktBufFree, Function.update_self]
  · simp only [pktBufFree, Function.update_of_ne hj]

theorem rqIds_cases (e : EfEvent) : e.rqIds = [] ∨ ∃ id, e.rqIds = [id] := by
  cases e with
  | rx ev => exact .inr ⟨ev.rqId, rfl⟩
  | rxDiscard rqId => exact .inr ⟨rqId, rfl⟩
  | other => exact .inl rfl

theorem PoolInv.handle {common : CommonData} {ring0 : Ringbuffer} {e : EfEvent}
    (h : PoolInv capacity ⟨v, e :: pending⟩) (hok : handleAndFree common ring0 v e = .ok (0, v')) :
    PoolInv capacity ⟨v', pending⟩ := by
  obtain ⟨pool, hlists, hperm⟩ := h.conserved
  simp only [PoolState.pendingIds, List.flatMap_cons] at hperm
  rw [handleAndFree] at hok
  cases hevent : handleEvent ⟨common, v.receiver, ring0⟩ e with
  | error halt => simp [hevent] at hok
  | ok r =>
    simp only [hevent] at hok
    obtain ⟨hrv, rfl⟩ := Prod.mk.inj (Except.ok.inj hok)
    rw [if_pos hrv]
    obtain hids | ⟨id, hids⟩ := rqIds_cases e
    · rw [hids] at hperm ⊢
      exact ⟨⟨pool, hlists, hperm⟩, h.ids, h.ring, h.maxFillLevel, h.posted⟩
    · rw [hids] at hperm ⊢
      rw [List.singleton_append, List.map_cons] at hperm
      have hperm' := List.perm_middle.symm.trans hperm
      have hfresh : id.toNat ∉ pool := by
        intro hin
        have hnodup := hperm'.nodup_iff.mpr List.nodup_range
        exact (List.nodup_cons.mp hnodup).1 (by simp [hin])
      refine ⟨⟨id.toNat :: pool, ?_, hperm'⟩, ?_, h.ring, h.maxFillLevel, h.posted⟩
      · change (pktBufFree v.pktMem id.toNat).freeList.Lists _
        rw [freeList_pktBufFree]
        exact hlists.push hfresh
      · intro p hp
        change ((pktBufFree v.pktMem id.toNat).mem p).id.toNat = p
        rw [id_pktBufFree]
        exact h.ids p hp

theorem PoolInv.step {s s' : PoolState} {t : PoolTurn} (hcapacity : capacity < pktPoolSize.toNat)
    (h : PoolInv capacity s) (hstep : PoolStep s t s') : PoolInv capacity s' := by
  have hpool : capacity + (([] : List EfEvent).flatMap EfEvent.rqIds).length ≤ pktPoolSize.toNat :=
    Nat.le_of_lt hcapacity
  cases hstep with
  | poll v events left hmax hposted => exact h.poll hposted
  | handle common ring0 v v' e events hok => exact h.handle hok
  | refill v v' hok =>
    obtain ⟨n, u, hrefill, hpost, hn, -⟩ := h.refillRxRing hpool
    obtain ⟨u', hpost', hinv, -⟩ := h.postBuffers n hn hpool
    obtain rfl : u = u' := Except.ok.inj (hpost.symm.trans hpost')
    obtain rfl : v' = u := Except.ok.inj (hok.symm.trans hrefill)
    exact hinv

end Step

section Run
variable {receiver : Receiver} {capacity : Nat} {efViIsAllocated efMemIsAllocated : Bool}
variable {posixMemalign : Int} {ts : List PoolTurn} {s : PoolState}

def started (receiver : Receiver) (capacity : Nat) (efViIsAllocated efMemIsAllocated : Bool)
    (posixMemalign : Int) : Int × Bool × VirtualInterfaceResource :=
  initPktsMemory efViIsAllocated efMemIsAllocated posixMemalign (zeroed receiver capacity)

theorem started_inv
    (h : (started receiver capacity efViIsAllocated efMemIsAllocated posixMemalign).1 = 0) :
    PoolInv capacity
      ⟨(started receiver capacity efViIsAllocated efMemIsAllocated posixMemalign).2.2, []⟩ := by
  have hargs : efViIsAllocated = true ∧ efMemIsAllocated = false ∧ posixMemalign = 0 := by
    rw [started, initPktsMemory] at h
    split_ifs at h with hflags hzero
    · exact ⟨hflags.1, by simpa using hflags.2, hzero⟩
    · exact absurd h hzero
    · simp at h
  obtain ⟨rfl, rfl, rfl⟩ := hargs
  obtain ⟨v, hinit, hinv⟩ := initPktsMemory_inv receiver capacity
  rw [started, hinit]
  exact hinv

theorem run_inv (hcapacity : capacity < pktPoolSize.toNat)
    (hinit : (started receiver capacity efViIsAllocated efMemIsAllocated posixMemalign).1 = 0)
    (h : Run PoolStep
      ⟨(started receiver capacity efViIsAllocated efMemIsAllocated posixMemalign).2.2, []⟩ ts s) :
    PoolInv capacity s :=
  Run.invariant (fun _ s => PoolInv capacity s) (started_inv hinit)
    (fun _ _ _ _ hinv hstep => hinv.step hcapacity hstep) h

/-- In every run each buffer is in one place, also between any two posts of `RefillRxRing`, which
finds a buffer for each of them and posts no more than the ring takes. -/
theorem buffers_conserved (hcapacity : capacity < pktPoolSize.toNat)
    (hinit : (started receiver capacity efViIsAllocated efMemIsAllocated posixMemalign).1 = 0)
    (h : Run PoolStep
      ⟨(started receiver capacity efViIsAllocated efMemIsAllocated posixMemalign).2.2, []⟩ ts s) :
    Conserved s ∧ s.resource.vi.posted.length ≤ capacity ∧
    (s.pending = [] → ∃ n v, refillRxRing s.resource = .ok v ∧ postBuffers n s.resource = .ok v ∧
      ∀ k ≤ n, ∃ t, postBuffers k s.resource = .ok t ∧ Conserved ⟨t, []⟩ ∧
        t.vi.posted.length ≤ capacity) := by
  have hinv := run_inv hcapacity hinit h
  refine ⟨hinv.conserved, hinv.posted, ?_⟩
  intro hpending
  obtain ⟨v, pending⟩ := s
  obtain rfl : pending = [] := hpending
  have hpool : capacity + (([] : List EfEvent).flatMap EfEvent.rqIds).length ≤ pktPoolSize.toNat :=
    Nat.le_of_lt hcapacity
  obtain ⟨n, v', hrefill, hpost, hn, -⟩ := hinv.refillRxRing hpool
  refine ⟨n, v', hrefill, hpost, ?_⟩
  intro k hk
  obtain ⟨t, ht, htinv, -⟩ := hinv.postBuffers k (Nat.le_trans (Nat.add_le_add_left hk _) hn) hpool
  exact ⟨t, ht, htinv.conserved, htinv.posted⟩

theorem buffers_conserved_one_report : ∃ id s,
    Run PoolStep ⟨(started blankReceiver 32 true false 0).2.2, []⟩ [.refill, .poll [.rxDiscard id]] s ∧
      s.pendingIds = [id] ∧ Conserved s ∧ s.resource.vi.posted.length ≤ 32 := by
  have hcapacity : 32 < pktPoolSize.toNat := by decide
  obtain ⟨v, hinit, hinv⟩ := initPktsMemory_inv blankReceiver 32
  have hstarted : started blankReceiver 32 true false 0 = (0, true, v) := hinit
  have hsuccess : (started blankReceiver 32 true false 0).1 = 0 := by rw [hstarted]
  obtain ⟨n, u, hrefill, hpost, hn, hfull⟩ := hinv.refillRxRing (Nat.le_of_lt hcapacity)
  obtain ⟨u', hpost', -, hlength⟩ := hinv.postBuffers n hn (Nat.le_of_lt hcapacity)
  obtain rfl : u = u' := Except.ok.inj (hpost.symm.trans hpost')
  unfold refillBatchSize at hfull
  cases hposted : u.vi.posted with
  | nil =>
    rw [hposted, List.length_nil] at hlength
    omega
  | cons id left =>
    have hreport : u.vi.posted.Perm (left ++ [EfEvent.rxDiscard id].flatMap EfEvent.rqIds) := by
      rw [hposted]
      exact (List.perm_append_singleton id left).symm
    have hpoll := PoolStep.poll u [.rxDiscard id] left (by simp) hreport
    have hrun : Run PoolStep ⟨(started blankReceiver 32 true false 0).2.2, []⟩
        [.refill, .poll [.rxDiscard id]] ⟨{ u with vi.posted := left }, [.rxDiscard id]⟩ := by
      rw [hstarted]
      exact (Run.single (PoolStep.refill v u hrefill)).append (Run.single hpoll)
    obtain ⟨hconserved, hring, -⟩ := buffers_conserved hcapacity hsuccess hrun
    exact ⟨id, _, hrun, rfl, hconserved, hring⟩

end Run

end UdpSm.NetworkReceiverImplementationEFVI
