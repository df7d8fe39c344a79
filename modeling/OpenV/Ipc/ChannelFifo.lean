import OpenV.Ipc.Channel
import OpenV.Lib.Run

/- A channel pair under every interleaving. The steps are the critical sections:
   a write first upgrades its weak reference to the peer, which keeps the peer
   alive, then pushes under the peer's lock, then wakes the reader and lets go of
   the peer; the drop of an endpoint does the same with its closing. The history
   keeps what has been written and received on each side, in the order of the
   critical sections. -/
namespace OpenV

open Endpoint
open Function (update)

inductive Side where
  | one
  | two
  deriving DecidableEq, Repr

def Side.other : Side → Side
  | .one => .two
  | .two => .one

@[simp] theorem Side.other_other (s : Side) : s.other.other = s := by cases s <;> rfl

/-- A call in progress on the endpoint `on`, which holds a reference to the peer; the flag says whether its
critical section is behind it. -/
inductive Call where
  | write (on : Side) (msg : Message) (fast : Bool) (pushed : Bool)
  | drop (on : Side) (told : Bool)

def Call.on : Call → Side
  | .write on _ _ _ => on
  | .drop on _ => on

/-- A channel pair. `strong` counts the references to each endpoint. -/
structure Pair where
  ep : Side → Endpoint
  strong : Side → Nat
  /-- the drop of the endpoint has begun -/
  dropped : Side → Bool
  calls : List Call
  /-- what has been pushed by writes on each endpoint, and what has been received on it -/
  written : Side → List Message
  received : Side → List Message
  /-- readers woken, or handed to the caller of `write_fast` -/
  woken : List Nat

inductive Recv where
  | plain
  | constrained (maxBytes maxHandles : Nat)
  | poll

inductive ChannelOp where
  | clone (s : Side)
  | release (s : Side)
  | upgrade (s : Side) (msg : Message) (fast : Bool)
  | push (i : Nat)
  | finish (i : Nat)
  | recv (s : Side) (how : Recv)
  | drop (s : Side)
  | tell (i : Nat)

/-- `create_pair`. -/
def createPair : Pair where
  ep := fun _ => {}
  strong := fun _ => 1
  dropped := fun _ => false
  calls := []
  written := fun _ => []
  received := fun _ => []
  woken := []

/-- A receive by one of the three ways: what it takes from the queue, if anything. -/
def Recv.take (how : Recv) (ep : Endpoint) : Option Message × Endpoint :=
  match how with
  | .plain => ep.tryRecv
  | .constrained maxBytes maxHandles =>
    match ep.tryRecvConstrained maxBytes maxHandles with
    | (.ok msg, ep') => (msg, ep')
    | (.error _, ep') => (none, ep')
  | .poll =>
    match ep.pollRecv with
    | (.ready (.ok msg), ep') => (some msg, ep')
    | (_, ep') => (none, ep')

namespace Pair

def setEp (p : Pair) (s : Side) (ep : Endpoint) : Pair := { p with ep := update p.ep s ep }

/-- The references to `s` that calls in progress hold. -/
def held (p : Pair) (s : Side) : Nat := p.calls.countP fun c => c.on.other == s

/-- A call on `s` begins if its weak reference to the peer can be upgraded. -/
def begin (p : Pair) (s : Side) (c : Call) : Res Unit × Pair :=
  if p.strong s.other = 0 then (.err "Peer closed", p)
  else (.ok (), { p with
    strong := update p.strong s.other (p.strong s.other + 1), calls := p.calls ++ [c] })

/-- A call on `s` wakes the reader of the peer and drops its reference to it. -/
def finish (p : Pair) (s : Side) (i : Nat) : Pair :=
  { p.setEp s.other (p.ep s.other).takeWaiter.2 with
    strong := update p.strong s.other (p.strong s.other - 1)
    calls := p.calls.eraseIdx i
    woken := if 0 < (p.ep s.other).waiter then p.woken ++ [(p.ep s.other).waiter] else p.woken }

end Pair

/-- A step that is not possible leaves everything as it is. -/
def ChannelOp.run : ChannelOp → Cmd Pair Unit
  | .clone s => fun p =>
    if p.strong s = 0 then (.err "no reference", p)
    else (.ok (), { p with strong := update p.strong s (p.strong s + 1) })
  | .release s => fun p =>
    -- only a reference that no call in progress relies on
    if p.strong s ≤ p.held s then (.err "no reference", p)
    else (.ok (), { p with strong := update p.strong s (p.strong s - 1) })
  | .upgrade s msg fast => fun p =>
    if p.strong s = 0 then (.err "no reference", p) else p.begin s (.write s msg fast false)
  | .push i => fun p =>
    match p.calls[i]? with
    | some (.write s msg fast false) =>
      (.ok (), { p.setEp s.other ((p.ep s.other).push msg) with
        calls := p.calls.set i (.write s msg fast true)
        written := update p.written s (p.written s ++ [msg]) })
    | _ => (.err "no such call", p)
  | .finish i => fun p =>
    match p.calls[i]? with
    | some (.write s _ _ true) => (.ok (), p.finish s i)
    | some (.drop s true) => (.ok (), p.finish s i)
    | _ => (.err "no such call", p)
  | .recv s how => fun p =>
    if p.strong s = 0 then (.err "no reference", p)
    else
      let (msg, ep') := how.take (p.ep s)
      (.ok (), { p.setEp s ep' with received := update p.received s (p.received s ++ msg.toList) })
  | .drop s => fun p =>
    if p.strong s ≠ 0 ∨ p.dropped s then (.err "not the last reference", p)
    else { p with dropped := update p.dropped s true }.begin s (.drop s false)
  | .tell i => fun p =>
    match p.calls[i]? with
    | some (.drop s false) =>
      (.ok (), { p.setEp s.other (p.ep s.other).close with calls := p.calls.set i (.drop s true) })
    | _ => (.err "no such call", p)

/-! ## First in, first out -/

/-- What has been written on the other side is what has been received, and what is still queued. -/
def Pair.Fifo (p : Pair) : Prop := ∀ s, p.written s.other = p.received s ++ (p.ep s).queue

/-- The message passes the limits of a constrained receive. -/
def Recv.Fits : Recv → Message → Prop
  | .constrained maxBytes maxHandles, msg => msg.bytes.length ≤ maxBytes ∧ msg.handles.length ≤ maxHandles
  | _, _ => True

/-- A receive takes the front of the queue or nothing. -/
theorem Recv.take_queue (how : Recv) (ep : Endpoint) :
    ep.queue = (how.take ep).1.toList ++ (how.take ep).2.queue := by
  cases how with
  | plain => cases hq : ep.queue <;> simp [Recv.take, tryRecv, hq]
  | constrained maxBytes maxHandles =>
    cases hq : ep.queue with
    | nil => simp [Recv.take, tryRecvConstrained, hq]
    | cons msg rest =>
      by_cases hbig : maxBytes < msg.bytes.length ∨ maxHandles < msg.handles.length <;>
        simp [Recv.take, tryRecvConstrained, hq, hbig]
  | poll =>
    cases hq : ep.queue with
    | nil => cases hc : ep.peerClosed <;> simp [Recv.take, pollRecv, hq, hc]
    | cons msg rest => simp [Recv.take, pollRecv, hq]

/-- A message that fits is received, whether or not the peer has closed. -/
theorem Recv.take_front {how : Recv} {ep : Endpoint} {msg : Message} {rest : List Message}
    (hq : ep.queue = msg :: rest) (hfit : how.Fits msg) : how.take ep = (some msg, { ep with queue := rest }) := by
  cases how with
  | plain => simp [Recv.take, tryRecv, hq]
  | constrained maxBytes maxHandles =>
    obtain ⟨hb, hh⟩ := hfit
    simp [Recv.take, tryRecvConstrained, hq, Nat.not_lt.mpr hb, Nat.not_lt.mpr hh]
  | poll => simp [Recv.take, pollRecv, hq]

theorem tryRecvConstrained_error {ep : Endpoint} {maxBytes maxHandles : Nat} {e : Nat × Nat}
    (h : (ep.tryRecvConstrained maxBytes maxHandles).1 = .error e) :
    (ep.tryRecvConstrained maxBytes maxHandles).2 = ep := by
  unfold tryRecvConstrained at h ⊢
  cases hq : ep.queue with
  | nil => rfl
  | cons msg rest =>
    simp only [hq] at h ⊢
    split at h
    · rename_i hbig
      rw [if_pos hbig]
    · cases h

section Fifo
variable {p : Pair}

theorem Pair.Fifo.setEp (h : p.Fifo) (s : Side) {ep : Endpoint} (hq : ep.queue = (p.ep s).queue) : (p.setEp s ep).Fifo := by
  intro s'
  by_cases e : s' = s
  · subst e
    simpa [Pair.setEp, hq] using h s'
  · simpa [Pair.setEp, Function.update_of_ne e] using h s'

theorem Pair.Fifo.push (h : p.Fifo) (s : Side) (msg : Message) : Pair.Fifo { p.setEp s.other ((p.ep s.other).push msg) with
    written := update p.written s (p.written s ++ [msg]) } := by
  intro s'
  by_cases e : s' = s.other
  · subst e
    have hs := h s.other
    rw [Side.other_other] at hs
    simp [Pair.setEp, Endpoint.push, hs]
  · have e' : s'.other ≠ s := fun h => e (by rw [← h, Side.other_other])
    simpa [Pair.setEp, Function.update_of_ne e, Function.update_of_ne e'] using h s'

theorem Pair.Fifo.recv (h : p.Fifo) (s : Side) (how : Recv) : Pair.Fifo { p.setEp s (how.take (p.ep s)).2 with
    received := update p.received s (p.received s ++ (how.take (p.ep s)).1.toList) } := by
  intro s'
  by_cases e : s' = s
  · subst e
    have hs := h s'
    rw [how.take_queue (p.ep s')] at hs
    simpa [Pair.setEp] using hs
  · simpa [Pair.setEp, Function.update_of_ne e] using h s'

theorem Pair.Fifo.begin (h : p.Fifo) (s : Side) (c : Call) :
    Cmd.Ends (fun _ => Pair.Fifo) Pair.Fifo (fun _ => True) (p.begin s c) := by
  unfold Pair.begin
  split
  · exact h
  · exact h

/-- One step. -/
theorem ChannelOp.run_fifo (op : ChannelOp) (h : p.Fifo) : op.run.endsIn Pair.Fifo p := by
  rw [Cmd.endsIn_of_eq rfl]
  cases op with
  | clone s | release s =>
    simp only [ChannelOp.run]
    split <;> exact h
  | upgrade s msg fast =>
    simp only [ChannelOp.run]
    split
    · exact h
    · exact h.begin s _
  | push i =>
    simp only [ChannelOp.run]
    split
    · exact h.push _ _
    · exact h
  | finish i =>
    simp only [ChannelOp.run]
    split
    · exact h.setEp _ rfl
    · exact h.setEp _ rfl
    · exact h
  | recv s how =>
    simp only [ChannelOp.run]
    split
    · exact h
    · exact h.recv s how
  | drop s =>
    simp only [ChannelOp.run]
    split
    · exact h
    · exact Pair.Fifo.begin (p := { p with dropped := update p.dropped s true }) h s _
  | tell i =>
    simp only [ChannelOp.run]
    split
    · exact h.setEp _ rfl
    · exact h

/-- What is queued can be received, one message a call. -/
theorem drain {s : Side} : ∀ {ways : List Recv} {p : Pair}, p.Fifo → p.strong s ≠ 0 →
    (∀ how ∈ ways, ∀ msg ∈ (p.ep s).queue, how.Fits msg) → (p.ep s).queue.length ≤ ways.length →
    ∃ p', runAll ChannelOp.run (ways.map (.recv s)) p = some p' ∧ p'.received s = p.written s.other
  | [], p, h, _, _, hlen => by
    have hq : (p.ep s).queue = [] := List.length_eq_zero_iff.mp (Nat.le_zero.mp hlen)
    refine ⟨p, rfl, ?_⟩
    rw [h s, hq, List.append_nil]
  | how :: ways, p, h, hs, hfit, hlen => by
    let p1 : Pair := { p.setEp s (how.take (p.ep s)).2 with
      received := update p.received s (p.received s ++ (how.take (p.ep s)).1.toList) }
    have hrun : ChannelOp.run (.recv s how) p = (.ok (), p1) := by simp only [ChannelOp.run, if_neg hs]; rfl
    have hep : p1.ep s = (how.take (p.ep s)).2 := Function.update_self ..
    have hsub : ∀ msg ∈ (p1.ep s).queue, msg ∈ (p.ep s).queue := fun msg hm => by
      rw [how.take_queue (p.ep s), ← hep]
      exact List.mem_append_right _ hm
    have hless : (p1.ep s).queue.length ≤ ways.length := by
      cases hq : (p.ep s).queue with
      | nil =>
        have htake := how.take_queue (p.ep s)
        rw [hq, ← hep] at htake
        rw [(List.append_eq_nil_iff.mp htake.symm).2]
        exact Nat.zero_le _
      | cons msg rest =>
        rw [hep, Recv.take_front hq (hfit how (.head _) msg (by rw [hq]; exact .head _))]
        rw [hq] at hlen
        simpa using hlen
    obtain ⟨p', hp', hrec⟩ := drain (h.recv s how) hs
      (fun how' hw msg hm => hfit how' (.tail _ hw) msg (hsub msg hm)) hless
    refine ⟨p', ?_, hrec⟩
    simp only [List.map_cons, runAll, hrun]
    exact hp'

/-- Every run of a channel pair: what is received on one side is a prefix of what was written on the other, in
order; a constrained receive that returns an error changes nothing; and whatever is queued, also if the peer has
closed since, is received by as many calls as there are messages. -/
theorem channel_fifo {ops : List ChannelOp} (hrun : runAll ChannelOp.run ops createPair = some p) (s : Side) :
    p.received s <+: p.written s.other ∧
    (∀ maxBytes maxHandles e, ((p.ep s).tryRecvConstrained maxBytes maxHandles).1 = .error e →
      ((p.ep s).tryRecvConstrained maxBytes maxHandles).2 = p.ep s) ∧
    (p.strong s ≠ 0 → ∀ ways : List Recv, (∀ how ∈ ways, ∀ msg ∈ (p.ep s).queue, how.Fits msg) →
      (p.ep s).queue.length ≤ ways.length →
      ∃ p', runAll ChannelOp.run (ways.map (.recv s)) p = some p' ∧ p'.received s = p.written s.other) := by
  have h : p.Fifo := runAll_keeps Pair.Fifo (fun op _ h => op.run_fifo h) (fun _ => rfl) hrun
  refine ⟨?_, fun _ _ _ => tryRecvConstrained_error, fun hs ways hfit hlen => drain h hs hfit hlen⟩
  rw [h s]
  exact List.prefix_append ..

/-- The peer writes twice, one message is received, the peer closes. -/
def closingRun : List ChannelOp := [.upgrade .one ⟨[1], []⟩ false, .push 0, .upgrade .one ⟨[2], []⟩ true, .push 1,
  .finish 0, .recv .two .plain, .finish 0, .release .one, .drop .one, .tell 0, .finish 0]

theorem channel_fifo_closingRun : ∃ p, runAll ChannelOp.run closingRun createPair = some p ∧
    (p.ep .two).peerClosed = true ∧ (p.ep .two).queue = [⟨[2], []⟩] ∧ p.received .two <+: p.written .one := by
  obtain ⟨p, hp⟩ : ∃ p, runAll ChannelOp.run closingRun createPair = some p := ⟨_, rfl⟩
  have hfifo := channel_fifo hp .two
  cases hp
  exact ⟨_, rfl, rfl, rfl, hfifo.1⟩

end Fifo
end OpenV
