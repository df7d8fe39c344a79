import OpenV.Lib.Writes

/- Receiving a frame (`src/net/virtio_mmio.rs`, `src/net/virtqueue.rs`). The buffers
   are shared with the device, which may write at any time into those it is offered.
   `recv` puts the buffer of a frame back into the available ring and then copies
   the frame out of it. -/
namespace OpenV.Virtio

open Function

structure Descriptor where
  addr : Nat
  len : Nat
  /-- the flag that another descriptor follows -/
  more : Bool := false
  next : Nat := 0

structure VirtQueue where
  size : Nat
  desc : Nat → Descriptor
  availIdx : Nat
  availRing : Nat → Nat
  usedIdx : Nat
  usedRing : Nat → Nat × Nat
  freeList : List Nat
  lastUsedIdx : Nat
  /-- the heads in the available ring that the device has not completed -/
  offered : List Nat

namespace VirtQueue

/-- `pop_one_used`: the driver's index has 32 bits, the device's 16. -/
def popOneUsed (q : VirtQueue) : Option ((Nat × Nat) × VirtQueue) :=
  if q.lastUsedIdx % 2 ^ 16 = q.usedIdx then none
  else
    let (id, len) := q.usedRing (q.lastUsedIdx % q.size)
    some ((id % 2 ^ 16, len), { q with lastUsedIdx := (q.lastUsedIdx + 1) % 2 ^ 32 })

/-- The first `n + 1` descriptors of a chain: all of them, unless the chain is a cycle. -/
def chain (desc : Nat → Descriptor) (n cur : Nat) : List Nat := cur :: match n with
  | 0 => []
  | n + 1 => if (desc cur).more then chain desc n (desc cur).next else []

def freeChain (start : Nat) (q : VirtQueue) : VirtQueue :=
  { q with freeList := q.freeList ++ chain q.desc q.size start }

/-- `enqueue_chain` of one buffer. -/
def enqueue (pa len : Nat) (q : VirtQueue) : VirtQueue :=
  match q.freeList.getLast? with
  | none => q
  | some id => { q with
      freeList := q.freeList.dropLast
      desc := update q.desc id { addr := pa, len := len }
      availRing := update q.availRing (q.availIdx % q.size) id
      availIdx := (q.availIdx + 1) % 2 ^ 16
      offered := id :: q.offered }

/-- The device may write at `a`. -/
def Offers (q : VirtQueue) (a : Nat) : Prop :=
  ∃ id ∈ q.offered, (q.desc id).addr ≤ a ∧ a < (q.desc id).addr + (q.desc id).len

/-- The part of `recv` under the lock: the buffer, the length of what is in it, and the queue afterwards. -/
def requeue (q : VirtQueue) : Option (Nat × Nat × VirtQueue) :=
  q.popOneUsed.map fun ((id, pktLen), q) => ((q.desc id).addr, pktLen, (q.freeChain id).enqueue (q.desc id).addr 4096)

/-- The buffer of the frame is offered again. -/
theorem offers_requeued {q q' : VirtQueue} {pa len i : Nat} (h : q.requeue = some (pa, len, q')) (hi : i < 4096) :
    q'.Offers (pa + i) := by
  obtain ⟨⟨⟨id, len⟩, q₁⟩, -, he⟩ := Option.map_eq_some_iff.mp h
  cases he
  have hne : (q₁.freeChain id).freeList ≠ [] := by
    rw [freeChain, chain.eq_def]
    simp
  obtain ⟨l, x, hl⟩ := (List.eq_nil_or_concat' _).resolve_left hne
  rw [enqueue, hl, List.getLast?_concat]
  exact ⟨x, .head _, by simp; omega⟩

def vnetHdrLen : Nat := 10

/-- The addresses that `recv` copies from, for a buffer of `n` bytes. -/
def reads (q : VirtQueue) (n : Nat) : List Nat :=
  q.requeue.elim [] fun (pa, len, _) => (List.range (min (len - vnetHdrLen) n)).map (pa + vnetHdrLen + ·)

/-- `recv`, where `mem` is what memory holds at the copy. -/
def recv (q : VirtQueue) (n : Nat) (mem : Nat → BitVec 8) : List (BitVec 8) := (q.reads n).map mem

/-- The device may write at `a` while `recv` copies. -/
def Shared (q : VirtQueue) (a : Nat) : Prop := ∃ pa len q', q.requeue = some (pa, len, q') ∧ q'.Offers a

/-- Whatever the device writes, `recv` returns the frame as it was completed, and reads no
buffer that it has handed back, if and only if it copies nothing. -/
theorem recv_frame_iff (q : VirtQueue) (n : Nat) (mem : Nat → BitVec 8) :
    ((∀ ws, (∀ w ∈ ws, q.Shared w.1) → q.recv n (applyWrites ws mem) = q.recv n mem) ∧
      ∀ a ∈ q.reads n, ¬q.Shared a) ↔ q.reads n = [] := by
  refine ⟨fun ⟨_, hnot⟩ => ?_, fun hnone => by simp [recv, hnone]⟩
  rcases hq : q.requeue with _ | ⟨pa, len, q'⟩
  · rw [reads, hq]
    rfl
  · rw [reads, hq] at hnot ⊢
    cases hk : min (len - vnetHdrLen) n with
    | zero => simp [hk]
    | succ k =>
      -- the first byte of the frame is in the buffer
      refine absurd ⟨pa, len, q', hq, offers_requeued hq (by decide)⟩ (hnot (pa + vnetHdrLen) ?_)
      simp [hk]

/-- One frame of one byte has been completed in the only buffer. -/
def oneFrame : VirtQueue where
  size := 64
  desc _ := { addr := 8192, len := 4096 }
  availIdx := 1
  availRing _ := 0
  usedIdx := 1
  usedRing _ := (0, 11)
  freeList := []
  lastUsedIdx := 0
  offered := []

/-- The device receives the next frame into the buffer before the copy. -/
theorem recv_torn : oneFrame.Shared 8202 ∧ oneFrame.recv 1500 (fun _ => 1) = [1] ∧
    oneFrame.recv 1500 (applyWrites [(8202, 2)] fun _ => 1) = [2] :=
  ⟨⟨_, _, _, rfl, 0, .head _, by decide⟩, by decide, by decide⟩

end VirtQueue
end OpenV.Virtio
