import OpenV.Sched.Streams

/- What one part of a call does to what the harts share, field by field. -/
namespace OpenV.Sched

open Micro Io Os Reader

namespace Os
section Fields
variable (s : Os) (p q : Pid) (ep ep' i i' h : Nat) (g : Endpoint → Endpoint) (k : Pipe → Pipe)
  (r : Reader) (v : Nat)

@[simp] theorem endpoints_setEndpoint : (s.setEndpoint ep g).endpoints ep' =
    if ep' = ep then g (s.endpoints ep) else s.endpoints ep' := Function.update_apply ..

@[simp] theorem pipes_setPipe : (s.setPipe i k).pipes i' = if i' = i then k (s.pipes i) else s.pipes i' :=
  Function.update_apply ..

@[simp] theorem endpoints_setPipe : (s.setPipe i k).endpoints = s.endpoints := rfl
@[simp] theorem pipes_setEndpoint : (s.setEndpoint ep g).pipes = s.pipes := rfl
@[simp] theorem queued_setEndpoint : (s.setEndpoint ep g).queued = s.queued := rfl
@[simp] theorem queued_setPipe : (s.setPipe i k).queued = s.queued := rfl
@[simp] theorem endpoints_setA0 : (s.setA0 p v).endpoints = s.endpoints := rfl
@[simp] theorem pipes_setA0 : (s.setA0 p v).pipes = s.pipes := rfl
@[simp] theorem queued_setA0 : (s.setA0 p v).queued = s.queued := rfl
@[simp] theorem endpoints_enqueue : (s.enqueue p).endpoints = s.endpoints := rfl
@[simp] theorem pipes_enqueue : (s.enqueue p).pipes = s.pipes := rfl
@[simp] theorem endpoints_leave : (s.leave h).endpoints = s.endpoints := rfl
@[simp] theorem pipes_leave : (s.leave h).pipes = s.pipes := rfl
@[simp] theorem endpoints_sleepAgain : (s.sleepAgain h p).endpoints = s.endpoints := rfl
@[simp] theorem pipes_sleepAgain : (s.sleepAgain h p).pipes = s.pipes := rfl

theorem proc_sleepIn : (s.sleepIn h r).proc q = if q = s.current h then (s.proc q).map Proc.rewind else s.proc q := by
  cases r <;> rfl

@[simp] theorem queued_sleepIn : (s.sleepIn h r).queued = s.queued := by cases r <;> rfl

theorem current_sleepIn : (s.sleepIn h r).current = Function.update s.current h 0 := by cases r <;> rfl

end Fields
end Os

/-- The reader that goes to sleep with this. -/
def Micro.sleeper (s : Os) : Micro → Option Reader
  | recvAgain (.read ep len) => if (s.endpoints ep).queue = [] then some (.read ep len) else none
  | recvAgain (.readPipe i len) => if (s.pipes i).writers = 0 then none else some (.readPipe i len)
  | checkAgain ep b n => if (s.endpoints ep).peerClosed then none else some (.channelRead ep b n)
  | _ => none

/-- Who goes to sleep has found an empty queue, or a pipe with writers, or a peer that has not closed. -/
theorem sleeper_cases {i : Micro} {s : Os} {r : Reader} (hr : i.sleeper s = some r) :
    (∃ ep len, i = .recvAgain r ∧ r = .read ep len ∧ (s.endpoints ep).queue = []) ∨
    (∃ k len, i = .recvAgain r ∧ r = .readPipe k len ∧ (s.pipes k).writers ≠ 0) ∨
    ∃ ep b n, i = .checkAgain ep b n ∧ r = .channelRead ep b n ∧ (s.endpoints ep).peerClosed = false := by
  unfold sleeper at hr
  split at hr
  · split_ifs at hr with hq
    cases hr
    exact .inl ⟨_, _, rfl, rfl, hq⟩
  · split_ifs at hr with hw
    cases hr
    exact .inr (.inl ⟨_, _, rfl, rfl, hw⟩)
  · split_ifs at hr with hc
    cases hr
    exact .inr (.inr ⟨_, _, _, rfl, rfl, Bool.eq_false_iff.mpr hc⟩)
  · cases hr

/-- The saved program counter means the same, and the process is as dead or alive. -/
def SameFrame (p p' : Proc) : Prop := p'.trap = p.trap ∧ p'.sepc = p.sepc ∧ p'.state = p.state

theorem SameFrame.refl (p : Proc) : SameFrame p p := ⟨rfl, rfl, rfl⟩

/-- Data is taken, and registers of processes are set; nothing else that other calls look at changes. -/
structure Quiet (s s' : Os) : Prop where
  frames : s.Each SameFrame s'
  queued : s'.queued = s.queued
  current : s'.current = s.current
  endpoints : ∀ ep, s'.endpoints ep = { s.endpoints ep with queue := (s'.endpoints ep).queue }
  pipes : ∀ i, s'.pipes i = { s.pipes i with data := (s'.pipes i).data }
  data : ∀ o, s'.hasData o = true → s.hasData o = true

theorem Quiet.refl (s : Os) : Quiet s s where
  frames := .refl .refl s
  queued := rfl
  current := rfl
  endpoints _ := rfl
  pipes _ := rfl
  data _ := id

theorem Quiet.setA0 {s s' : Os} (hq : Quiet s s') (me : Pid) (v : Nat) : Quiet s (s'.setA0 me v) where
  frames := hq.frames.trans (fun a b => ⟨b.1.trans a.1, b.2.1.trans a.2.1, b.2.2.trans a.2.2⟩)
    (.setProc .refl fun p _ => SameFrame.refl p)
  queued := hq.queued
  current := hq.current
  endpoints := hq.endpoints
  pipes := hq.pipes
  data := hq.data

theorem tryRecv_quiet {me : Pid} {r : Reader} {s s' : Os} (h : tryRecv me r s = some s') : Quiet s s' := by
  -- a queue with its first message gone
  have hpop : ∀ ep m q, (s.endpoints ep).queue = m :: q → Quiet s (s.setEndpoint ep fun e => { e with queue := q }) := by
    intro ep m q hm
    refine ⟨.of_proc .refl fun _ => rfl, rfl, rfl, fun ep' => ?_, fun _ => rfl, fun o ho => ?_⟩
    · rw [endpoints_setEndpoint]
      split
      · rename_i e
        subst e
        rfl
      · rfl
    · cases o with
      | pipe i => exact ho
      | channel ep' =>
        by_cases e : ep' = ep
        · rw [e, hasData, hm]
          rfl
        · simpa [hasData, e] using ho
  unfold tryRecv at h
  cases r with
  | read ep len =>
    dsimp only at h
    split at h
    · cases h
    · rename_i m q hm
      cases h
      exact (hpop ep m q hm).setA0 _ _
  | channelRead ep b n =>
    dsimp only at h
    split at h
    · cases h
    · rename_i m q hm
      split at h
      · cases h
        exact (Quiet.refl s).setA0 _ _
      · cases h
        exact (hpop ep m q hm).setA0 _ _
  | readPipe i len =>
    dsimp only at h
    split at h
    · cases h
    · rename_i hne
      cases h
      have hquiet : Quiet s (s.setPipe i fun e => { e with data := (s.pipes i).data.drop len }) := by
        refine ⟨.of_proc .refl fun _ => rfl, rfl, rfl, fun _ => rfl, fun i' => ?_, fun o ho => ?_⟩
        · rw [pipes_setPipe]
          split
          · rename_i e
            subst e
            rfl
          · rfl
        · cases o with
          | channel ep => exact ho
          | pipe i' =>
            by_cases e : i' = i
            · rw [e, hasData]
              simpa using hne
            · simpa [hasData, e] using ho
      exact hquiet.setA0 _ _

/-- What a part of a call can be followed by. -/
inductive Next (s : Io) : Micro → List Micro → Prop where
  | done {r : Reader} : Next s (.recv r) r.finish
  | spin {k len : Nat} : Next s (.recv (.readPipe k len)) [.recv (.readPipe k len)]
  | empty {ep b n : Nat} : Next s (.recv (.channelRead ep b n)) [.checkClosed ep b n]
  | enlist {r : Reader} : Next s (.recv r) [.register r]
  | closed {ep b n : Nat} : Next s (.checkClosed ep b n) [.release ep]
  | opened {ep b n : Nat} : Next s (.checkClosed ep b n) [.register (.channelRead ep b n)]
  | again {r : Reader} : Next s (.register r) [.recvAgain r]
  | found {r : Reader} : Next s (.recvAgain r) [.retract r]
  | still {ep b n : Nat} (hq : s.os.hasData (.channel ep) = false) :
      Next s (.recvAgain (.channelRead ep b n)) [.checkAgain ep b n]
  | late {ep b n : Nat} : Next s (.checkAgain ep b n) [.retract (.channelRead ep b n)]
  | sleep {i : Micro} {r : Reader} (hr : i.sleeper s.os = some r) : Next s i []
  | retract {r : Reader} : Next s (.retract r) r.finish
  | sent {ep : Nat} {msg : Nat × Nat} (ha : s.alive (s.os.endpoints ep).peer = true) :
      Next s (.send ep msg) [.swap (.channel (s.os.endpoints ep).peer), .release (s.os.endpoints ep).peer]
  | unsent {ep : Nat} {msg : Nat × Nat} : Next s (.send ep msg) []
  | sentFast {ep : Nat} {msg : Nat × Nat} (ha : s.alive (s.os.endpoints ep).peer = true) :
      Next s (.sendFast ep msg) [.swapFast ep (s.os.endpoints ep).peer]
  | unsentFast {ep : Nat} {msg : Nat × Nat} : Next s (.sendFast ep msg) [.release ep]
  | swapped {o : Stream} (hw : 0 < s.os.waiter o) : Next s (.swap o) [.enqueue (s.os.waiter o)]
  | unswapped {o : Stream} (hw : ¬0 < s.os.waiter o) : Next s (.swap o) []
  | swappedFast {ep peer : Nat} (hw : 0 < s.os.waiter (.channel peer)) :
      Next s (.swapFast ep peer) [.release peer, .handOff (s.os.waiter (.channel peer)) ep]
  | unswappedFast {ep peer : Nat} (hw : ¬0 < s.os.waiter (.channel peer)) :
      Next s (.swapFast ep peer) [.release peer, .release ep]
  | enqueue {p : Pid} : Next s (.enqueue p) []
  | handOff {p : Pid} {ep : Nat} : Next s (.handOff p ep) []
  | kept {ep : Nat} (ha : s.alive ep = true) : Next s (.release ep) []
  | last {ep : Nat} : Next s (.release ep) [.dropEndpoint ep]
  | told {ep : Nat} (ha : s.alive (s.os.endpoints ep).peer = true) :
      Next s (.dropEndpoint ep) [.swap (.channel (s.os.endpoints ep).peer), .release (s.os.endpoints ep).peer]
  | alone {ep : Nat} (ha : s.alive (s.os.endpoints ep).peer = false) : Next s (.dropEndpoint ep) []
  | keptHandle {ep : Nat} (ha : alive ep { s with
      os := s.os.setEndpoint ep fun e => { e with handles := e.handles - 1 } } = true) : Next s (.closeHandle ep) []
  | lastHandle {ep : Nat} : Next s (.closeHandle ep) [.dropEndpoint ep]
  | broken {k : Nat} {bytes : List (BitVec 8)} : Next s (.writePipe k bytes) []
  | whole {k : Nat} {bytes : List (BitVec 8)} : Next s (.writePipe k bytes) [.pushPipe k bytes]
  | spinPush {k : Nat} {bytes : List (BitVec 8)} : Next s (.pushPipe k bytes) [.pushPipe k bytes]
  | pushed {k : Nat} {bytes : List (BitVec 8)} : Next s (.pushPipe k bytes) [.swap (.pipe k)]
  | lastWriter {k : Nat} : Next s (.closeWriter k) [.swap (.pipe k), .dropWriter k]
  | oneWriter {k : Nat} : Next s (.closeWriter k) [.dropWriter k]
  | dropWriter {k : Nat} : Next s (.dropWriter k) []
  | closeReader {k : Nat} : Next s (.closeReader k) []

section Exec
variable {h : Nat} {i : Micro} {s : Io}

theorem tryRecv_none {me : Pid} {r : Reader} {s : Os} (h : tryRecv me r s = none) : s.hasData r.stream = false := by
  unfold tryRecv at h
  cases r <;> dsimp only at h <;> split at h
  all_goals first
    | (rename_i hm; simp [hasData, stream, hm]; done)
    | cases h
    | (split at h <;> cases h)

theorem exec_sleeper {r : Reader} (hr : i.sleeper s.os = some r) : exec h i s = (s.os.sleepIn h r, []) := by
  rcases sleeper_cases hr with ⟨ep, len, rfl, rfl, hq⟩ | ⟨k, len, rfl, rfl, hw⟩ | ⟨ep, b, n, rfl, rfl, hc⟩
  · simp [exec, tryRecv, hq]
  · simp [exec, hw]
  · simp [exec, hc]

theorem exec_next (h : Nat) (i : Micro) (s : Io) : Next s i (exec h i s).2 := by
  cases i with
  | recv r =>
    cases r with
    | read ep len =>
      simp only [exec]
      split
      · exact .done
      · exact .enlist
    | channelRead ep b n =>
      simp only [exec]
      split
      · exact .done
      · exact .empty
    | readPipe k len =>
      simp only [exec]
      split
      · exact .spin
      · split
        · exact .done
        · split
          · exact .done
          · exact .enlist
  | checkClosed ep b n =>
    simp only [exec]
    split
    · exact .closed
    · exact .opened
  | register r => exact .again
  | recvAgain r =>
    cases hs : sleeper s.os (.recvAgain r) with
    | some r' =>
      rw [exec_sleeper hs]
      exact .sleep hs
    | none =>
      cases r with
      | read ep len =>
        simp only [exec]
        split
        · exact .found
        · rename_i hn
          have hq := tryRecv_none hn
          simp [hasData, stream] at hq
          simp [sleeper, hq] at hs
      | channelRead ep b n =>
        simp only [exec]
        split
        · exact .found
        · rename_i hn
          exact .still (tryRecv_none hn)
      | readPipe k len =>
        simp only [exec]
        split
        · exact .found
        · rename_i hw
          simp [sleeper, hw] at hs
  | checkAgain ep b n =>
    cases hs : sleeper s.os (.checkAgain ep b n) with
    | some r' =>
      rw [exec_sleeper hs]
      exact .sleep hs
    | none =>
      simp only [exec]
      split
      · exact .late
      · rename_i hc
        simp [sleeper, hc] at hs
  | retract r =>
    cases r with
    | read ep len => exact .retract
    | channelRead ep b n => exact .retract
    | readPipe k len => exact .retract
  | send ep msg =>
    simp only [exec]
    split
    · rename_i ha
      exact .sent ha
    · exact .unsent
  | sendFast ep msg =>
    simp only [exec]
    split
    · rename_i ha
      exact .sentFast ha
    · exact .unsentFast
  | swap o =>
    simp only [exec]
    split
    · rename_i hw
      exact .swapped hw
    · rename_i hw
      exact .unswapped hw
  | swapFast ep peer =>
    simp only [exec]
    split
    · rename_i hw
      exact .swappedFast hw
    · rename_i hw
      exact .unswappedFast hw
  | enqueue p => exact .enqueue
  | handOff p ep => exact .handOff
  | release ep =>
    simp only [exec, unref]
    split
    · rename_i ha
      exact .kept ha
    · exact .last
  | dropEndpoint ep =>
    simp only [exec]
    split
    · rename_i ha
      exact .told ha
    · rename_i ha
      exact .alone (by simpa using ha)
  | closeHandle ep =>
    simp only [exec, unref]
    split
    · rename_i ha
      exact .keptHandle ha
    · exact .lastHandle
  | writePipe k bytes =>
    simp only [exec]
    split
    · exact .broken
    · exact .whole
  | pushPipe k bytes =>
    simp only [exec]
    split
    · exact .spinPush
    · exact .pushed
  | closeWriter k =>
    simp only [exec]
    split
    · exact .lastWriter
    · exact .oneWriter
  | dropWriter k => exact .dropWriter
  | closeReader k => exact .closeReader

end Exec

namespace Next
variable {s : Io} {i j : Micro} {new : List Micro}
variable {r : Reader} {w : Nat}

/-- What is left of a call that reads is one thing. -/
theorem reader (hn : Next s i new) (hj : j ∈ new) (hr : j.reader = some r) : i.reader = some r ∧ new = [j] := by
  cases hn with
  | done | retract =>
    rename_i r'
    cases r' <;> simp [finish] at hj <;> subst hj <;> cases hr
  | spin | empty | enlist | opened | again | found | still | late =>
    cases List.mem_singleton.mp hj
    exact ⟨hr, rfl⟩
  | _ => all_goals (simp at hj; try (rcases hj with rfl | rfl <;> cases hr))

theorem sleeper_reader {s : Os} (hr : i.sleeper s = some r) : i.reader = some r := by
  rcases sleeper_cases hr with ⟨_, _, rfl, rfl, -⟩ | ⟨_, _, rfl, rfl, -⟩ | ⟨_, _, _, rfl, rfl, -⟩ <;> rfl

theorem holds_of_reader (hr : i.reader = some r) : i.holds w = (r.stream == .channel w) := by
  cases i <;> cases hr <;> rfl

/-- A new reference comes from an old one. -/
theorem holds_new (hn : Next s i new) (hj : j ∈ new) (hh : j.holds w = true) :
    i.holds w = true ∨ s.alive w = true := by
  cases hn with
  | done | retract =>
    rename_i r
    cases r <;> simp [Reader.finish] at hj <;> subst hj <;> simp_all [Micro.holds, Micro.reader, Reader.stream]
  | sent ha | told ha =>
    simp at hj
    rcases hj with rfl | rfl
    · cases hh
    · right
      simp [Micro.holds] at hh
      rw [← hh]
      exact ha
  | sentFast ha =>
    cases List.mem_singleton.mp hj
    simp [Micro.holds] at hh ⊢
    rcases hh with rfl | rfl
    · exact .inl rfl
    · exact .inr ha
  | swappedFast | unswappedFast =>
    simp at hj
    left
    rcases hj with rfl | rfl <;> simp_all [Micro.holds]
  | closed =>
    cases List.mem_singleton.mp hj
    left
    simpa [Micro.holds, Micro.reader, Reader.stream] using hh
  | spin | empty | enlist | opened | again | found | still | late | unsentFast | spinPush =>
    cases List.mem_singleton.mp hj
    exact .inl hh
  | _ => all_goals (simp at hj; try (rcases hj with rfl | rfl <;> cases hh))

/-- A reference stays with the call, or is given up or lost. -/
theorem holds_kept (hn : Next s i new) (hh : i.holds w = true) :
    (∃ j ∈ new, j.holds w = true) ∨ i = .release w ∨ (∃ r, i.sleeper s.os = some r ∧ r.stream = .channel w) ∨
      ∃ p, i = .handOff p w := by
  cases hn with
  | done | retract =>
    rename_i r
    left
    cases r <;> simp_all [Micro.holds, Micro.reader, Reader.stream, Reader.finish]
  | sleep hr =>
    refine .inr (.inr (.inl ⟨_, hr, ?_⟩))
    rw [holds_of_reader (sleeper_reader hr)] at hh
    exact eq_of_beq hh
  | kept | last => exact .inr (.inl (by simpa [Micro.holds] using hh))
  | handOff =>
    cases eq_of_beq hh
    exact .inr (.inr (.inr ⟨_, rfl⟩))
  | sentFast | swappedFast | unswappedFast =>
    left
    simp_all [Micro.holds, or_comm]
  | closed => exact .inl ⟨_, List.mem_singleton_self _, by simpa [Micro.holds, Micro.reader, Reader.stream] using hh⟩
  | spin | empty | enlist | opened | again | found | still | late | unsentFast | spinPush =>
    exact .inl ⟨_, List.mem_singleton_self _, hh⟩
  | _ => all_goals cases hh

end Next

/-! ## The fields -/

section Exec
variable {h : Nat} {i : Micro} {s : Io}

/-- Endpoints keep their peer, their handles until they are closed, and what they know of the peer. -/
theorem exec_endpoint (ep : Nat) : ((exec h i s).1.endpoints ep).peer = (s.os.endpoints ep).peer ∧
    (i ≠ .closeHandle ep → ((exec h i s).1.endpoints ep).handles = (s.os.endpoints ep).handles) ∧
    ((s.os.endpoints ep).peerClosed = true → ((exec h i s).1.endpoints ep).peerClosed = true) := by
  unfold exec sleepIn setWaiter
  dsimp only
  repeat' split
  all_goals first
    | exact ⟨rfl, fun _ => rfl, id⟩
    | (rw [(tryRecv_quiet (by assumption)).endpoints]; exact ⟨rfl, fun _ => rfl, id⟩)
    | (simp; split <;> simp_all)

theorem exec_writers (k : Nat) (hi : i ≠ .dropWriter k) :
    ((exec h i s).1.pipes k).writers = (s.os.pipes k).writers := by
  unfold exec sleepIn setWaiter
  dsimp only
  repeat' split
  all_goals first
    | rfl
    | rw [(tryRecv_quiet (by assumption)).pipes]
    | (simp; done)
    | (simp; split <;> simp_all)

/-- The slot that this writes to. -/
def Micro.slot : Micro → Option Stream
  | register r => some r.stream
  | retract r => some r.stream
  | swap o => some o
  | swapFast _ peer => some (.channel peer)
  | _ => none

theorem Quiet.waiter {s s' : Os} (hq : Quiet s s') (o : Stream) : s'.waiter o = s.waiter o := by
  cases o with
  | channel ep => simp only [Os.waiter]; rw [hq.endpoints]
  | pipe k => simp only [Os.waiter]; rw [hq.pipes]

theorem exec_waiter (o : Stream) (hi : i.slot ≠ some o) : (exec h i s).1.waiter o = s.os.waiter o := by
  unfold exec sleepIn setWaiter
  dsimp only
  repeat' split
  all_goals first
    | rfl
    | exact (tryRecv_quiet (by assumption)).waiter o
    | (cases o <;> simp [waiter] <;> split <;> simp_all [slot])

/-- New data comes with someone who will take the slot. -/
theorem exec_hasData (o : Stream) (hd : (exec h i s).1.hasData o = true) : s.os.hasData o = true ∨
    .swap o ∈ (exec h i s).2 ∨ ∃ own ep, o = .channel ep ∧ .swapFast own ep ∈ (exec h i s).2 := by
  revert hd
  unfold exec sleepIn setWaiter
  dsimp only
  repeat' split
  all_goals intro hd
  all_goals first
    | exact .inl hd
    | exact .inl ((tryRecv_quiet (by assumption)).data o hd)
    | (revert hd; cases o <;> simp [hasData] <;> (try split) <;> simp_all)

/-! ### Of a call that goes on -/

theorem awake_pipe {k len : Nat} {s : Os} (hs : sleeper s (.recvAgain (.readPipe k len)) = none) :
    (s.pipes k).writers = 0 := by
  by_contra hw
  simp [sleeper, hw] at hs

theorem awake_recv {r : Reader} {me : Pid} {s : Os} (hs : sleeper s (.recvAgain r) = none)
    (hp : ∀ k len, r = .readPipe k len → False) (hn : tryRecv me r s = none) : ∃ ep b n, r = .channelRead ep b n := by
  cases r with
  | read ep len =>
    have hq := tryRecv_none hn
    simp [hasData, stream] at hq
    simp [sleeper, hq] at hs
  | channelRead ep b n => exact ⟨ep, b, n, rfl⟩
  | readPipe k len => exact (hp k len rfl).elim

theorem frames_setA0 {s s' : Os} {me : Pid} {v : Nat} (hp : ∀ q, s'.proc q = s.proc q) :
    s.Each SameFrame (s'.setA0 me v) := by
  have hset : s'.Each SameFrame (s'.setA0 me v) := .setProc .refl fun p _ => SameFrame.refl p
  intro q
  rw [← hp q]
  exact hset q

/-- Without someone who goes to sleep, processes keep their frames, the run queue grows, and only a writer that hands
its hart over leaves it and loses a reference. -/
theorem exec_awake (hs : i.sleeper s.os = none) : s.os.Each SameFrame (exec h i s).1 ∧
    s.os.queued <+: (exec h i s).1.queued ∧ ((∀ p ep, i ≠ .handOff p ep) → (exec h i s).1.current = s.os.current) ∧
    ∀ ep, (∀ p, i ≠ .handOff p ep) → ((exec h i s).1.endpoints ep).lost = (s.os.endpoints ep).lost := by
  unfold exec setWaiter
  dsimp only
  repeat' split
  all_goals first
    | exact absurd (awake_pipe hs) (by assumption)
    | (obtain ⟨_, _, _, rfl⟩ := awake_recv hs (by assumption) (by assumption); simp_all; done)
    | refine ⟨?_, ?_, fun hi => ?_, fun ep hi => ?_⟩
  all_goals first
    | rfl
    | exact .of_proc .refl fun _ => rfl
    | exact frames_setA0 fun _ => rfl
    | exact (tryRecv_quiet (by assumption)).frames
    | exact (tryRecv_quiet (by assumption)).queued ▸ List.prefix_refl _
    | exact (tryRecv_quiet (by assumption)).current
    | rw [(tryRecv_quiet (by assumption)).endpoints]
    | exact .setProc .refl fun p _ => ⟨rfl, rfl, rfl⟩
    | (simp; done)
    | (simp; split <;> simp_all)
    | simp_all [sleeper]

/-- Nobody else touches a pipe while its reader has the lock. -/
theorem exec_locked (k : Nat) (hl : (s.os.pipes k).locked = true) (hi : ∀ r, i.reader = some r → r.stream ≠ .pipe k) :
    ((exec h i s).1.pipes k).locked = true ∧
      ((exec h i s).1.hasData (.pipe k) = true → s.os.hasData (.pipe k) = true) := by
  unfold exec sleepIn setWaiter
  dsimp only
  repeat' split
  all_goals first
    | exact ⟨hl, id⟩
    | exact ⟨by rw [(tryRecv_quiet (by assumption)).pipes]; exact hl, (tryRecv_quiet (by assumption)).data _⟩
    | (simp [hasData]; split <;> simp_all [reader])

end Exec
end OpenV.Sched
