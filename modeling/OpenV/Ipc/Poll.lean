import OpenV.Ipc.Channel
import OpenV.Kernel.State

/- `sys_poll` (`src/syscall/fs.rs`) and the reads that come after it. To see whether a channel has a
   message, the call takes one with `try_recv`; the other objects it only looks at. The array of
   the caller lies in memory that can be written. -/
namespace OpenV.SysPoll

open Function

structure PipeData where
  data : List (BitVec 8) := []
  readOpen : Nat := 1
  writeOpen : Nat := 1

structure Tty where
  buf : List (BitVec 8) := []
  raw : Bool := false
  ctrlc : Bool := false

/-- What reads take from. -/
structure Objects where
  endpoint : Nat → Endpoint := fun _ => {}
  pipe : Nat → PipeData := fun _ => {}
  tty : Nat → Tty := fun _ => {}

structure PollFd where
  fd : BitVec 32
  events : BitVec 16
  revents : BitVec 16 := 0
  deriving DecidableEq

def pollIn : BitVec 16 := 0x001
def pollOut : BitVec 16 := 0x004
def pollErr : BitVec 16 := 0x008
def pollHup : BitVec 16 := 0x010
def pollNval : BitVec 16 := 0x020

/-- `if events & mask != 0 { rev |= mask; }` -/
def asked (events mask : BitVec 16) : BitVec 16 := if events &&& mask ≠ 0 then mask else 0

/-- One round of the loop: what it finds for the descriptor. -/
def look (table : HandleTable) (p : PollFd) (s : Objects) : BitVec 16 × Objects :=
  match table.get p.fd.toNat with
  | none => (pollNval, s)
  | some (.pipeRead id) => ((if (s.pipe id).data ≠ [] then asked p.events pollIn else 0) |||
      (if (s.pipe id).writeOpen = 0 then pollHup else 0), s)
  | some (.pipeWrite id) => (asked p.events pollOut ||| (if (s.pipe id).readOpen = 0 then pollErr else 0), s)
  | some (.channel id) =>
    if p.events &&& pollIn ≠ 0 then
      ((if (s.endpoint id).tryRecv.1.isSome then pollIn else 0) ||| asked p.events pollOut,
        { s with endpoint := update s.endpoint id (s.endpoint id).tryRecv.2 })
    else (asked p.events pollOut, s)
  | some _ => (asked p.events pollIn ||| asked p.events pollOut, s)

/-- The number of descriptors that are ready, and the array as it is left. -/
def pollLoop (table : HandleTable) : List PollFd → Objects → (Nat × List PollFd) × Objects
  | [], s => ((0, []), s)
  | p :: ps, s =>
    let here := look table p s
    let rest := pollLoop table ps here.2
    if here.1 ≠ 0 then ((rest.1.1 + 1, { p with revents := here.1 } :: rest.1.2), rest.2)
    else ((rest.1.1, p :: rest.1.2), rest.2)

def sysPoll (ptr : Nat) (table : HandleTable) (fds : List PollFd) : Cmd Objects (Nat × List PollFd) := fun s =>
  if fds = [] then (.ok (0, fds), s)
  else if 2 ^ 64 ≤ fds.length * 8 then (.panic "attempt to multiply with overflow", s)
  else if isUserPointerValid 1 ptr (fds.length * 8) = false then (.ok (EFAULT, fds), s)
  else (.ok (pollLoop table fds s).1, (pollLoop table fds s).2)

/-! ## Later reads -/

/-- What happens after the call: reads, also by `sys_channel_read`, those of a terminal by its foreground group, and
data that arrive. -/
inductive Later where
  | readChannel (id : Nat)
  | channelRead (id maxBytes maxHandles : Nat)
  | readPipe (id len : Nat)
  | readTty (id len : Nat)
  | send (id : Nat) (msg : Message)
  | fill (id : Nat) (bytes : List (BitVec 8))
  | typed (id : Nat) (byte : BitVec 8)

inductive Got where
  | message (m : Option Message)
  | tooLarge (size : Nat × Nat)
  /-- `none`: the reader has to wait -/
  | bytes (bs : Option (List (BitVec 8)))
  | nothing
  deriving DecidableEq

def Later.exec : Later → Objects → Got × Objects
  | .readChannel id, s =>
    (.message (s.endpoint id).tryRecv.1, { s with endpoint := update s.endpoint id (s.endpoint id).tryRecv.2 })
  | .channelRead id maxBytes maxHandles, s =>
    let (r, ep) := (s.endpoint id).tryRecvConstrained maxBytes maxHandles
    (match r with | .ok m => .message m | .error size => .tooLarge size, { s with endpoint := update s.endpoint id ep })
  | .readPipe id len, s =>
    let half := s.pipe id
    if half.data ≠ [] then
      (.bytes (half.data.take len), { s with pipe := update s.pipe id { half with data := half.data.drop len } })
    else (.bytes (if half.writeOpen = 0 then some [] else none), s)
  | .readTty id len, s =>
    let tty := s.tty id
    if tty.ctrlc then (.bytes (some []), { s with tty := update s.tty id { tty with ctrlc := false } })
    else
      let line := if tty.raw then tty.buf.length else tty.buf.findIdx (· == 10) + 1
      if tty.buf ≠ [] ∧ line ≤ tty.buf.length then
        (.bytes (tty.buf.take (min len line)),
          { s with tty := update s.tty id { tty with buf := tty.buf.drop (min len line) } })
      else (.bytes none, s)
  | .send id msg, s => (.nothing, { s with endpoint := update s.endpoint id ((s.endpoint id).push msg) })
  | .fill id bytes, s =>
    (.nothing, { s with pipe := update s.pipe id { s.pipe id with data := (s.pipe id).data ++ bytes } })
  | .typed id byte, s => (.nothing, { s with tty := update s.tty id { s.tty id with buf := (s.tty id).buf ++ [byte] } })

/-- What the reads return. -/
def results : List Later → Objects → List Got
  | [], _ => []
  | op :: ops, s => (op.exec s).1 :: results ops (op.exec s).2

theorem tryRecv_eq (ep : Endpoint) : ep.tryRecv = (ep.queue.head?, { ep with queue := ep.queue.drop 1 }) := by
  rcases ep with ⟨_ | _, _⟩ <;> rfl

/-- The queue of a channel is known from what reads return. -/
theorem queue_of_results {s s' : Objects} (id : Nat) (h : ∀ ops, results ops s' = results ops s) :
    (s'.endpoint id).queue = (s.endpoint id).queue := by
  have hpop (s : Objects) : (((Later.readChannel id).exec s).2.endpoint id).queue = (s.endpoint id).queue.drop 1 := by
    simp only [Later.exec, update_self, tryRecv_eq]
  have hhead := (List.cons.inj (h [.readChannel id])).1
  simp only [Later.exec, tryRecv_eq, Got.message.injEq] at hhead
  generalize hq : (s.endpoint id).queue = q at hhead ⊢
  induction q generalizing s s' with
  | nil => exact List.head?_eq_none_iff.mp hhead
  | cons m q ih =>
    obtain ⟨rest, hrest⟩ := List.head?_eq_some_iff.mp hhead
    have hnext (ops) := (List.cons.inj (h (.readChannel id :: ops))).2
    have hhead' := (List.cons.inj (hnext [.readChannel id])).1
    have htail := ih hnext ?_ ?_
    · rw [hpop, hrest] at htail
      rw [hrest, show rest = q from htail]
    all_goals simp_all [Later.exec, tryRecv_eq]

/-! ## What the call takes -/

/-- The descriptor is that of the channel, and it is asked whether it can be read. -/
def PollFd.takes (table : HandleTable) (id : Nat) (p : PollFd) : Bool :=
  p.events &&& pollIn != 0 && table.get p.fd.toNat == some (.channel id)

/-- `k id` messages are gone from the channel `id`. -/
def Objects.drop (k : Nat → Nat) (s : Objects) : Objects :=
  { s with endpoint := fun id => { s.endpoint id with queue := (s.endpoint id).queue.drop (k id) } }

theorem Objects.drop_zero (s : Objects) : s.drop (fun _ => 0) = s := rfl

theorem look_objects (table : HandleTable) (p : PollFd) (s : Objects) :
    (look table p s).2 = s.drop fun id => if p.takes table id then 1 else 0 := by
  unfold look
  split
  case h_4 id hget =>
    have htakes (j : Nat) : p.takes table j = true ↔ p.events &&& pollIn ≠ 0 ∧ id = j := by
      rw [PollFd.takes, Bool.and_eq_true, bne_iff_ne, beq_iff_eq, hget, Option.some_inj, KernelObject.channel.injEq]
    split
    · rename_i hin
      dsimp only [Objects.drop]
      rw [tryRecv_eq]
      congr 1
      funext j
      by_cases hj : j = id
      · subst hj
        rw [update_self, if_pos ((htakes j).mpr ⟨hin, rfl⟩)]
      · rw [update_of_ne hj, if_neg fun h => hj ((htakes j).mp h).2.symm]
        rfl
    · rename_i hin
      simp only [htakes, hin, false_and, if_false, Objects.drop_zero]
  all_goals simp_all [PollFd.takes, Objects.drop_zero]

theorem pollLoop_objects (table : HandleTable) (fds : List PollFd) (s : Objects) :
    (pollLoop table fds s).2 = s.drop fun id => fds.countP (·.takes table id) := by
  induction fds generalizing s with
  | nil => rfl
  | cons p ps ih =>
    have hrest : (pollLoop table (p :: ps) s).2 = (pollLoop table ps (look table p s).2).2 := by
      simp only [pollLoop]
      split <;> rfl
    rw [hrest, ih, look_objects]
    simp only [Objects.drop, List.drop_drop, List.countP_cons, Nat.add_comm]

/-- The descriptors are looked at. -/
def Polled (ptr : Nat) (fds : List PollFd) : Prop :=
  fds.length * 8 < 2 ^ 64 ∧ isUserPointerValid 1 ptr (fds.length * 8) = true

/-- Later reads return what they would have returned if and only if no channel with a message is asked whether it
can be read. -/
theorem poll_keeps_reads_iff (ptr : Nat) (table : HandleTable) (fds : List PollFd) (s : Objects) :
    (∀ ops, results ops (sysPoll ptr table fds s).2 = results ops s) ↔
      (Polled ptr fds → ∀ p ∈ fds, ∀ id, p.takes table id = true → (s.endpoint id).queue = []) := by
  have hloop : Polled ptr fds → (sysPoll ptr table fds s).2 = s.drop fun id => fds.countP (·.takes table id) := by
    rintro ⟨hlen, hptr⟩
    unfold sysPoll
    split_ifs with h0 h1 h2
    · rw [h0]
      rfl
    · omega
    · rw [hptr] at h2
      cases h2
    · exact pollLoop_objects table fds s
  constructor
  · intro h hpolled p hp id ht
    have hq := queue_of_results id h
    rw [hloop hpolled] at hq
    have hpos : 0 < fds.countP (·.takes table id) := List.countP_pos_iff.mpr ⟨p, hp, ht⟩
    have hlen := congrArg List.length hq
    simp only [Objects.drop, List.length_drop] at hlen
    exact List.eq_nil_of_length_eq_zero (by omega)
  · intro h ops
    suffices hs : (sysPoll ptr table fds s).2 = s by rw [hs]
    by_cases hpolled : Polled ptr fds
    · rw [hloop hpolled, Objects.drop]
      congr 1
      funext id
      by_cases hk : fds.countP (·.takes table id) = 0
      · rw [hk]
        rfl
      · obtain ⟨p, hp, ht⟩ := List.countP_pos_iff.mp (Nat.pos_of_ne_zero hk)
        have hnil := h hpolled p hp id ht
        rw [hnil, List.drop_nil, ← hnil]
    · unfold sysPoll
      split_ifs with h0 h1 h2
      · rfl
      · rfl
      · rfl
      · exact absurd ⟨by omega, by simpa using h2⟩ hpolled

/-- A channel has a message; after it has been polled, a read has to wait. -/
theorem poll_takes_message : let s : Objects := { endpoint := fun _ => { queue := [⟨[7], []⟩] } }
    let table : HandleTable := { map := [(3, ⟨.channel 0, Rights.all, 1⟩)] }
    (sysPoll 0x100000000 table [{ fd := 0x10003, events := pollIn }] s).1 =
        .ok (1, [{ fd := 0x10003, events := pollIn, revents := pollIn }]) ∧
      results [.readChannel 0] (sysPoll 0x100000000 table [{ fd := 0x10003, events := pollIn }] s).2 =
        [.message none] := by
  decide +kernel

end OpenV.SysPoll
