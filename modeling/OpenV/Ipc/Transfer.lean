import OpenV.Ipc.HandleSpec
import OpenV.Ipc.Syscall

/- Moving handles through a channel. A handle that has been transferred does not
   resolve in the receiver's table: the value it gets carries another generation
   than the entry. And a call that fails may leave its mark on the caller's table:
   `sys_pipe` checks its pointer too late, and `sys_channel_write` has taken the
   handles by the time it finds the peer gone. -/
namespace OpenV

open Cmd Function HandleTable Rights

namespace HandleTable

/-- The two tables cannot be told apart. -/
def Same (t t' : HandleTable) : Prop := (∀ id, t.lookup id = t'.lookup id) ∧ ∀ h, h ∈ t.cloexec ↔ h ∈ t'.cloexec

theorem Same.refl (t : HandleTable) : t.Same t := ⟨fun _ => rfl, fun _ => Iff.rfl⟩

end HandleTable

section Tables
variable {t t' : HandleTable} {entry : HandleEntry} {id : Nat}

/-- Removing handles frees slots and fills none. -/
theorem takeEntries_free : ∀ (hs : List Nat) {t : HandleTable}, t.lookup id = none → (takeEntries t hs).2.lookup id = none
  | [], _, h => h
  | x :: hs, t, h => by
    show (takeEntries (t.removeEntry x).2 hs).2.lookup id = none
    refine takeEntries_free hs ?_
    cases he : t.getEntry x with
    | none =>
      rw [removeEntry_of_none he]
      exact h
    | some entry =>
      rw [removeEntry_of_some he, lookup_dropId]
      split
      · rfl
      · exact h

/-- The first handle of a list is taken from the table. -/
theorem takeEntries_cons {x : Nat} (hs : List Nat) (he : t.getEntry x = some entry) :
    (takeEntries t (x :: hs)).2.lookup (x % 65536) = none ∧ ∃ rest, (takeEntries t (x :: hs)).1 = entry :: rest := by
  simp only [takeEntries, removeEntry_of_some he]
  refine ⟨takeEntries_free hs ?_, _, rfl⟩
  rw [lookup_dropId, if_pos rfl]

/-- New handles go to free slots. -/
theorem mintAll_keeps : ∀ {entries : List HandleEntry} {hs : List Nat} {t t' : HandleTable},
    mintAll t entries = some (hs, t') → t.lookup id = some entry → t'.lookup id = some entry
  | [], _, _, _, hm, h => by
    cases hm
    exact h
  | e :: entries, _, t, _, hm, h => by
    simp only [mintAll, mint_eq, Option.bind_eq_bind, Option.bind_eq_some_iff, Option.map_eq_some_iff] at hm
    obtain ⟨_, ⟨newId, hfree, rfl⟩, ⟨_, t2⟩, hrest, hpure⟩ := hm
    cases hpure
    refine mintAll_keeps hrest ?_
    have hne : id ≠ newId := fun e' => by
      rw [e', (lowestFree_some hfree).2] at h
      cases h
    rw [lookup_insertId, if_neg hne]
    exact h

/-- The value handed out for a received entry does not resolve to it, nor to anything else. -/
theorem mintAll_cons {entries : List HandleEntry} {hs : List Nat} (hm : mintAll t (entry :: entries) = some (hs, t')) :
    ∃ new rest, hs = new :: rest ∧ t'.getEntry new = none := by
  simp only [mintAll, mint_eq, Option.bind_eq_bind, Option.bind_eq_some_iff, Option.map_eq_some_iff] at hm
  obtain ⟨_, ⟨newId, hfree, rfl⟩, ⟨rest, t2⟩, hrest, hpure⟩ := hm
  cases hpure
  refine ⟨_, rest, rfl, ?_⟩
  obtain ⟨hid, -⟩ := lowestFree_some hfree
  have hlook : t2.lookup newId = some entry :=
    mintAll_keeps hrest (by rw [lookup_insertId, if_pos rfl])
  obtain ⟨hslot, hgen⟩ := (eq_encodeHandle hid).mp
    (rfl : encodeHandle newId ((entry.generation + 1) % 65536) = encodeHandle newId _)
  have hother : ¬entry.generation = (entry.generation + 1) % 65536 := by omega
  rw [getEntry_eq, hslot, hgen, hlook]
  simp [hother]

theorem insertTwo_some {a b : KernelObject} {h1 h2 : Nat} (h : insertTwo t a b = some (h1, h2, t')) :
    ∃ id1 id2, t.lowestFree = some id1 ∧ (t.insertId id1 ⟨a, Rights.all, 1⟩).lowestFree = some id2 ∧
      h1 = encodeHandle id1 1 ∧ h2 = encodeHandle id2 1 ∧
      t' = (t.insertId id1 ⟨a, Rights.all, 1⟩).insertId id2 ⟨b, Rights.all, 1⟩ := by
  simp only [insertTwo, HandleTable.insert, HandleTable.insertWithRights_eq, Option.bind_eq_bind,
    Option.bind_eq_some_iff, Option.map_eq_some_iff] at h
  obtain ⟨_, ⟨id1, hfree1, rfl⟩, _, ⟨id2, hfree2, rfl⟩, hpure⟩ := h
  cases hpure
  exact ⟨id1, id2, hfree1, hfree2, rfl, rfl, rfl⟩

end Tables

/-! ## A transfer -/

/-- `s` sends what `w` asks for, and the read `r` of the process `pid` takes that message off the queue, whatever
happens in between to other tables and queues. -/
structure Transfer (k k' : Ipc) (spid rpid : Nat) (mem : UserMem) (w r : ChannelArgs) (sent : HandleTable)
    (handles : List Nat) : Prop where
  table : k.fds spid = some sent
  moves : ∃ k1 k2, sysChannelWrite spid mem w k = (.ok 0, k1) ∧ k2.fds spid = k1.fds spid ∧
    ∃ a0 a1 bytes, sysChannelRead rpid r k2 = (.ok (.done a0 a1 bytes handles), k') ∧
    ∃ t ep rest, k2.fds rpid = some t ∧ t.getWithRights (r.fd % 2 ^ 32) read = .ok (.channel ep) ∧
      (k2.endpoints ep).queue = w.message mem sent :: rest ∧ (k'.endpoints ep).queue = rest

/-- Each handle has arrived with its object and rights, and is gone from the sender. -/
structure Arrived (k' : Ipc) (spid rpid : Nat) (ids : List Nat) (sent : HandleTable) (handles : List Nat) : Prop where
  resolves : ∃ t, k'.fds rpid = some t ∧ List.Forall₂ (fun id new => ∃ entry entry', sent.getEntry id = some entry ∧
    t.getEntry new = some entry' ∧ entry'.object = entry.object ∧ entry'.rights = entry.rights) ids handles
  gone : ∃ t, k'.fds spid = some t ∧ ∀ id ∈ ids, t.getEntry id = none

section Transfer
variable {k k' : Ipc} {spid rpid pid : Nat} {mem : UserMem} {w r a : ChannelArgs} {t sent : HandleTable} {handles : List Nat}

theorem checkHandles_ok : ∀ {hs : List Nat}, checkHandles t hs = .ok () → ∀ h ∈ hs, ∃ entry, t.getEntry h = some entry
  | [], _, _, hh => by cases hh
  | x :: hs, hc, h, hh => by
    unfold checkHandles at hc
    cases he : t.getEntry x with
    | none =>
      rw [he] at hc
      cases hc
    | some entry =>
      simp only [he] at hc
      split at hc
      · rcases List.mem_cons.mp hh with rfl | hh
        · exact ⟨entry, he⟩
        · exact checkHandles_ok hc h hh
      · cases hc

variable {ep e : Nat} {E X : Ipc → Prop}

/-- What has been checked when a write makes its first change. -/
theorem channelWriteCheck_ok (h : channelWriteCheck pid mem a k = .ok (t, ep)) :
    k.fds pid = some t ∧ ∀ id ∈ a.handleIds mem, ∃ entry, t.getEntry id = some entry := by
  unfold channelWriteCheck at h
  split at h
  · cases h
  split at h
  · cases h
  split at h
  · cases h
  split at h
  · cases h
  split at h
  · split at h
    · cases h
    split at h
    · cases h
    split at h
    · cases h
    · rename_i hc
      cases h
      exact ⟨‹_›, checkHandles_ok hc⟩
  · cases h

/-- The outcomes of a write: refused; or the handles are taken, and the message is queued unless the peer is gone. -/
theorem sysChannelWrite_wp : (sysChannelWrite pid mem a).wp (fun e k' =>
    (channelWriteCheck pid mem a k = .error e ∧ k' = k) ∨
    ∃ t ep, channelWriteCheck pid mem a k = .ok (t, ep) ∧ k'.fds pid = some (takeEntries t (a.handleIds mem)).2 ∧
      (e = 0 ∨ e = usizeMax)) E X k := by
  simp only [sysChannelWrite, wp_bind, wp_get]
  cases hc : channelWriteCheck pid mem a k with
  | error e =>
    simp only [wp_pure]
    exact .inl ⟨trivial, trivial⟩
  | ok x =>
    obtain ⟨t, ep⟩ := x
    simp only [writeFast, wp_bind, wp_modify, wp_get, wp_ite, wp_pure]
    have hfds : (k.setFds pid (takeEntries t (a.handleIds mem)).2).fds pid = some (takeEntries t (a.handleIds mem)).2 :=
      update_self ..
    exact ⟨fun _ => ⟨fun _ => .inr ⟨t, ep, rfl, hfds, .inl trivial⟩, absurd trivial⟩,
      fun _ => ⟨fun h => absurd h (by decide), fun _ => .inr ⟨t, ep, rfl, hfds, .inr trivial⟩⟩⟩

theorem queue_ne {α : Type} (x : α) (l : List α) : x :: l ≠ l := fun h => by
  have := congrArg List.length h
  simp at this

/-- A read that takes a message off the queue mints a handle for each entry of the message. -/
theorem sysChannelRead_wp (hX : ∀ k, X k) {msg : Message} {rest : List Message} (ht : k.fds pid = some t)
    (hep : t.getWithRights (a.fd % 2 ^ 32) read = .ok (.channel ep)) (hq : (k.endpoints ep).queue = msg :: rest) :
    (sysChannelRead pid a).wp (fun res k' => ∀ a0 a1 bytes handles, res = .done a0 a1 bytes handles →
      (k'.endpoints ep).queue = rest → ∃ t', mintAll t msg.handles = some (handles, t') ∧
        k'.fds = Function.update k.fds pid (some t')) E X k := by
  have hsame : (k.endpoints ep).queue ≠ rest := by
    rw [hq]
    exact queue_ne msg rest
  simp only [sysChannelRead, wp_bind, wp_get, wp_ite, wp_pure, ht, hep]
  refine ⟨fun _ _ _ _ _ _ h => absurd h hsame, fun _ => ⟨fun _ _ _ _ _ _ h => absurd h hsame, fun _ => ?_⟩⟩
  by_cases hbig : a.bufLen < msg.bytes.length ∨ a.handlesLen < msg.handles.length
  · simp only [Endpoint.tryRecvConstrained, hq, if_pos hbig, wp_pure]
    exact fun _ _ _ _ _ h => absurd h (queue_ne msg rest)
  · simp only [Endpoint.tryRecvConstrained, hq, if_neg hbig, copyMsgToUser, wp_bind, wp_modify]
    have hall : msg.handles.take (min a.handlesLen msg.handles.length) = msg.handles :=
      List.take_of_length_le (by omega)
    rw [hall]
    cases hm : mintAll t msg.handles with
    | none => exact (wp_die _).mpr (hX _)
    | some x =>
      obtain ⟨minted, t'⟩ := x
      simp only [wp_bind, wp_modify, wp_pure]
      intro a0 a1 bytes handles hres _
      cases hres
      exact ⟨t', rfl, rfl⟩

theorem checkHandles_error : ∀ {hs : List Nat}, checkHandles t hs = .error e → e ≠ 0
  | [], hc => by cases hc
  | x :: hs, hc => by
    unfold checkHandles at hc
    split at hc
    · split at hc
      · exact checkHandles_error hc
      · cases hc
        decide
    · cases hc
      decide

theorem channelWriteCheck_error (h : channelWriteCheck pid mem a k = .error e) : e ≠ 0 := by
  unfold channelWriteCheck at h
  split at h
  · cases h
    decide
  split at h
  · cases h
    decide
  split at h
  · cases h
    decide
  split at h
  · cases h
    decide
  split at h
  · split at h
    · cases h
      decide
    split at h
    · cases h
      decide
    split at h
    · cases h
      exact checkHandles_error ‹_›
    · cases h
  · cases h
    decide

theorem handleIds_eq_nil (a : ChannelArgs) (mem : UserMem) : a.handleIds mem = [] ↔ a.handlesLen = 0 := by
  simp [ChannelArgs.handleIds, UserMem.u32s]

/-- A transfer succeeds exactly if there is nothing to transfer. -/
theorem transfer_arrives_iff (h : Transfer k k' spid rpid mem w r sent handles) :
    Arrived k' spid rpid (w.handleIds mem) sent handles ↔ w.handlesLen = 0 := by
  obtain ⟨hsent, k1, k2, hw, htab, a0, a1, bytes, hread, t, ep, rest, ht, hep, hq, hq'⟩ := h
  have hwrite : (sysChannelWrite spid mem w).wp _ (fun _ => True) (fun _ => True) k := sysChannelWrite_wp
  rw [wp_of_eq hw] at hwrite
  obtain ⟨hc, -⟩ | ⟨t1, ep1, hc, hfds, -⟩ := hwrite
  · exact absurd rfl (channelWriteCheck_error hc)
  obtain ⟨ht1, hids⟩ := channelWriteCheck_ok hc
  rw [hsent] at ht1
  cases ht1
  have hminted := sysChannelRead_wp (E := fun _ => True) (fun _ => trivial) ht hep hq
  rw [wp_of_eq hread] at hminted
  obtain ⟨t', hm, hk'⟩ := hminted a0 a1 bytes handles rfl hq'
  have hr' : k'.fds rpid = some t' := by rw [hk', update_self]
  rw [← handleIds_eq_nil w mem]
  refine ⟨fun harr => ?_, fun hnil => ?_⟩
  · by_contra hne
    obtain ⟨x, hs, hids'⟩ := List.exists_cons_of_ne_nil hne
    obtain ⟨entry, hentry⟩ := hids x (by rw [hids']; exact .head _)
    obtain ⟨-, more, hmsg⟩ := takeEntries_cons hs hentry
    have hmsg : (w.message mem sent).handles = entry :: more := by rw [ChannelArgs.message, hids', hmsg]
    rw [hmsg] at hm
    obtain ⟨new, news, rfl, hnone⟩ := mintAll_cons hm
    obtain ⟨t2, ht2, hall⟩ := harr.resolves
    rw [hr'] at ht2
    cases ht2
    rw [hids'] at hall
    obtain ⟨⟨_, entry', -, hsome, -⟩, -⟩ := List.forall₂_cons.mp hall
    rw [hnone] at hsome
    cases hsome
  · have hmsg : (w.message mem sent).handles = [] := by rw [ChannelArgs.message, hnil, takeEntries]
    rw [hmsg] at hm
    cases hm
    rw [hnil]
    refine ⟨⟨t, hr', .nil⟩, ?_⟩
    by_cases e : spid = rpid
    · exact ⟨t, by rw [e]; exact hr', nofun⟩
    · have hs' : k'.fds spid = some (takeEntries sent (w.handleIds mem)).2 := by
        rw [hk', update_of_ne e, htab]
        exact hfds
      exact ⟨_, hs', nofun⟩

end Transfer

/-- Two processes with the ends of a channel; the first also has a memory object. -/
def twoProcs : Ipc where
  fds := fun pid =>
    if pid = 1 then some ⟨[(0, ⟨.channel 0, all, 1⟩), (1, ⟨.vmo 0, read ||| transfer, 1⟩)], []⟩
    else if pid = 2 then some ⟨[(0, ⟨.channel 1, all, 1⟩)], []⟩ else none
  endpoints := fun _ => {}
  peer := fun id => 1 - id
  alive := fun id => decide (id < 2)
  nextId := 2

/-- The handle 65537, as a `u32` at each multiple of four. -/
def handleMem : UserMem := fun ptr => if ptr % 2 = 0 then 1#8 else 0#8

/-- A message without handles. -/
theorem transfer_arrives_empty : ∃ k' sent, Transfer twoProcs k' 1 2 handleMem ⟨65536, 0, 0, 0, 0⟩ ⟨65536, 0, 0, 0, 0⟩
    sent [] ∧ Arrived k' 1 2 [] sent [] := by
  have h : Transfer twoProcs _ 1 2 handleMem ⟨65536, 0, 0, 0, 0⟩ ⟨65536, 0, 0, 0, 0⟩ _ [] :=
    ⟨rfl, _, _, rfl, rfl, _, _, _, rfl, _, _, _, rfl, rfl, rfl, rfl⟩
  exact ⟨_, _, h, (transfer_arrives_iff h).mpr rfl⟩

/-- The memory object is sent: the receiver is told 131073, and its entry has generation 1. -/
theorem transfer_lost : ∃ k' sent handles, Transfer twoProcs k' 1 2 handleMem ⟨65536, 0, 0, 0x100000000, 1⟩
    ⟨65536, 0, 0, 0x100000000, 1⟩ sent handles ∧
    ¬Arrived k' 1 2 ((⟨65536, 0, 0, 0x100000000, 1⟩ : ChannelArgs).handleIds handleMem) sent handles := by
  have h : Transfer twoProcs _ 1 2 handleMem ⟨65536, 0, 0, 0x100000000, 1⟩ ⟨65536, 0, 0, 0x100000000, 1⟩ _ [131073] :=
    ⟨rfl, _, _, rfl, rfl, _, _, _, rfl, _, _, _, rfl, rfl, rfl, rfl⟩
  refine ⟨_, _, _, h, fun harr => ?_⟩
  obtain ⟨t, ht, hall⟩ := harr.resolves
  cases ht
  have hids : (⟨65536, 0, 0, 0x100000000, 1⟩ : ChannelArgs).handleIds handleMem = [65537] := by decide
  obtain ⟨⟨_, entry, -, hsome, -⟩, -⟩ := List.forall₂_cons.mp hall
  cases hsome

/-! ## Calls that fail -/

/-- The calls that make or move handles. -/
inductive IpcCall where
  | pipe (ptr : Nat)
  | channelCreate (ptr : Nat)
  | channelWrite (mem : UserMem) (a : ChannelArgs)

/-- A call of the process `pid`: what it leaves in `a0`. -/
def IpcCall.run (pid : Nat) : IpcCall → Cmd Ipc Nat
  | .pipe ptr => do return (← sysPipe pid ptr).a0
  | .channelCreate ptr => do return (← sysChannelCreate pid ptr).a0
  | .channelWrite mem a => sysChannelWrite pid mem a

/-- The handle table of `pid` is as it was. -/
def SameFds (pid : Nat) (k k' : Ipc) : Prop :=
  match k.fds pid, k'.fds pid with
  | some t, some t' => t.Same t'
  | none, none => True
  | _, _ => False

/-- The calls whose failure leaves no trace in the handle table. A failing `sys_pipe` leaves both its handles; a failing
`sys_channel_create` clears `FD_CLOEXEC` under the two values it had handed out; a failing `sys_channel_write` that has
come as far as the delivery has dropped its handles. -/
def IpcCall.Traceless (pid : Nat) (k : Ipc) : IpcCall → Prop
  | .pipe _ => k.fds pid = none
  | .channelCreate _ => ∀ t, k.fds pid = some t → ∀ h1 h2 t',
      insertTwo t (.channel k.nextId) (.channel (k.nextId + 1)) = some (h1, h2, t') → h1 ∉ t.cloexec ∧ h2 ∉ t.cloexec
  | .channelWrite mem a => a.handlesLen = 0 ∨ ∀ t ep, channelWriteCheck pid mem a k ≠ .ok (t, ep)

section Failing
variable {k k' : Ipc} {pid : Nat} {t t' : HandleTable}

theorem sameFds_some (h : k.fds pid = some t) (h' : k'.fds pid = some t') : SameFds pid k k' ↔ t.Same t' := by
  simp only [SameFds, h, h']

theorem sameFds_of_eq (h : k'.fds pid = k.fds pid) : SameFds pid k k' := by
  unfold SameFds
  rw [h]
  cases k.fds pid with
  | none => trivial
  | some t => exact .refl t

variable {a b : KernelObject} {h1 h2 : Nat}

/-- Two handles more can be told from before. -/
theorem not_same_insertTwo (h : insertTwo t a b = some (h1, h2, t')) : ¬t.Same t' := by
  intro hsame
  obtain ⟨id1, id2, hfree1, hfree2, -, -, rfl⟩ := insertTwo_some h
  have h2 := hsame.1 id1
  rw [lookup_insertId, lookup_insertId, (lowestFree_some hfree1).2, if_pos rfl] at h2
  split at h2 <;> cases h2

/-- Taking the two handles back restores the entries, and clears `FD_CLOEXEC` under their values. -/
theorem same_removeTwo (h : insertTwo t a b = some (h1, h2, t')) :
    t.Same ((t'.remove h1).2.remove h2).2 ↔ h1 ∉ t.cloexec ∧ h2 ∉ t.cloexec := by
  obtain ⟨id1, id2, hfree1, hfree2, rfl, rfl, rfl⟩ := insertTwo_some h
  obtain ⟨hlt1, hnone1⟩ := lowestFree_some hfree1
  obtain ⟨hlt2, hnone2⟩ := lowestFree_some hfree2
  have hne : id2 ≠ id1 := fun e => by
    rw [lookup_insertId, if_pos e] at hnone2
    cases hnone2
  rw [lookup_insertId, if_neg hne] at hnone2
  obtain ⟨hs1, -⟩ := (eq_encodeHandle hlt1).mp (rfl : encodeHandle id1 1 = encodeHandle id1 1)
  obtain ⟨hs2, -⟩ := (eq_encodeHandle hlt2).mp (rfl : encodeHandle id2 1 = encodeHandle id2 1)
  -- both handles resolve, so both entries go
  have he1 : ((t.insertId id1 ⟨a, all, 1⟩).insertId id2 ⟨b, all, 1⟩).getEntry (encodeHandle id1 1) =
      some ⟨a, all, 1⟩ := by
    rw [getEntry_insertId hlt2, hs1, if_neg hne.symm, getEntry_insertId hlt1, hs1, if_pos rfl, if_pos rfl]
  have he2 : ((((t.insertId id1 ⟨a, all, 1⟩).insertId id2 ⟨b, all, 1⟩).clearCloexec
      (encodeHandle id1 1)).dropId id1).getEntry (encodeHandle id2 1) = some ⟨b, all, 1⟩ := by
    rw [getEntry_dropId, hs2, if_neg hne]
    show ((t.insertId id1 ⟨a, all, 1⟩).insertId id2 ⟨b, all, 1⟩).getEntry (encodeHandle id2 1) = _
    rw [getEntry_insertId hlt2, hs2, if_pos rfl, if_pos rfl]
  rw [remove_eq, remove_eq, removeEntry_of_some he1, hs1, removeEntry_of_some he2, hs2]
  refine ⟨fun hsame => ?_, fun hflags => ⟨fun id => ?_, fun x => ?_⟩⟩
  · have hx := fun x => (hsame.2 x).mp
    simp only [dropId, clearCloexec, List.mem_filter] at hx
    refine ⟨fun hc => ?_, fun hc => ?_⟩
    · simpa using (hx _ hc).1.2
    · simpa using (hx _ hc).2
  · rw [lookup_dropId, lookup_clearCloexec, lookup_dropId, lookup_clearCloexec, lookup_insertId, lookup_insertId]
    split_ifs with e2 e1
    · rw [e2, hnone2]
    · rw [e1, hnone1]
    · rfl
  · simp only [dropId, clearCloexec, List.mem_filter]
    refine ⟨fun hc => ⟨⟨hc, ?_⟩, ?_⟩, fun hc => hc.1.1⟩
    · simp only [bne_iff_ne]
      exact fun e => hflags.1 (e ▸ hc)
    · simp only [bne_iff_ne]
      exact fun e => hflags.2 (e ▸ hc)

theorem pipe_traceless (k : Ipc) (pid ptr : Nat) : (IpcCall.run pid (.pipe ptr)).wp
    (fun e k' => e ≠ 0 → (SameFds pid k k' ↔ IpcCall.Traceless pid k (.pipe ptr))) (fun _ => True) (fun _ => True) k := by
  simp only [IpcCall.run, sysPipe, wp_bind, wp_get, wp_modify]
  cases ht : k.fds pid with
  | none =>
    simp only [wp_pure]
    exact fun _ => ⟨fun _ => ht, fun _ => sameFds_of_eq rfl⟩
  | some t =>
    cases hi : insertTwo t (.pipeRead k.nextId) (.pipeWrite k.nextId) with
    | none => simp only [hi, wp_die]
    | some x =>
      obtain ⟨hr, hw, t'⟩ := x
      simp only [hi, wp_bind, wp_modify, wp_ite, wp_pure]
      refine ⟨fun _ h0 => absurd rfl h0, fun _ _ => ?_⟩
      rw [sameFds_some ht (update_self ..)]
      refine ⟨fun hsame => absurd hsame (not_same_insertTwo hi), fun hnone => ?_⟩
      have hnone : k.fds pid = none := hnone
      rw [ht] at hnone
      cases hnone

theorem channelCreate_traceless (k : Ipc) (pid ptr : Nat) : (IpcCall.run pid (.channelCreate ptr)).wp
    (fun e k' => e ≠ 0 → (SameFds pid k k' ↔ IpcCall.Traceless pid k (.channelCreate ptr)))
    (fun _ => True) (fun _ => True) k := by
  simp only [IpcCall.run, sysChannelCreate, wp_bind, wp_get, wp_modify]
  cases ht : k.fds pid with
  | none =>
    simp only [wp_pure]
    refine fun _ => ⟨fun _ t ht' => ?_, fun _ => sameFds_of_eq rfl⟩
    rw [ht] at ht'
    cases ht'
  | some t =>
    cases hi : insertTwo t (.channel k.nextId) (.channel (k.nextId + 1)) with
    | none => simp only [hi, wp_die]
    | some x =>
      obtain ⟨h1, h2, t'⟩ := x
      simp only [hi, wp_bind, wp_modify, wp_ite, wp_pure]
      refine ⟨fun _ h0 => absurd rfl h0, fun _ _ => ?_⟩
      rw [sameFds_some ht (update_self ..), same_removeTwo hi]
      simp only [IpcCall.Traceless, ht, Option.some.injEq, forall_eq', hi, Prod.mk.injEq, and_imp]
      exact ⟨fun h _ _ _ e1 e2 _ => e1 ▸ e2 ▸ h, fun h => h h1 h2 t' rfl rfl rfl⟩

theorem channelWrite_traceless (k : Ipc) (pid : Nat) (mem : UserMem) (a : ChannelArgs) : (IpcCall.run pid (.channelWrite mem a)).wp
    (fun e k' => e ≠ 0 → (SameFds pid k k' ↔ IpcCall.Traceless pid k (.channelWrite mem a)))
    (fun _ => True) (fun _ => True) k := by
  refine wp_imp sysChannelWrite_wp fun e k' hd _ => ?_
  obtain ⟨hc, rfl⟩ | ⟨t, ep, hc, hfds, -⟩ := hd
  · refine ⟨fun _ => .inr fun t ep => ?_, fun _ => sameFds_of_eq rfl⟩
    rw [hc]
    exact fun h => by cases h
  · obtain ⟨ht, hids⟩ := channelWriteCheck_ok hc
    rw [sameFds_some ht hfds]
    refine ⟨fun hsame => .inl ?_, fun htr => ?_⟩
    · by_contra hne
      obtain ⟨x, hs, hids'⟩ := List.exists_cons_of_ne_nil fun hnil => hne ((handleIds_eq_nil a mem).mp hnil)
      obtain ⟨entry, hentry⟩ := hids x (by rw [hids']; exact .head _)
      have hslot := hsame.1 (x % 65536)
      rw [hids', (takeEntries_cons hs hentry).1, (getEntry_eq_some.mp hentry).1] at hslot
      cases hslot
    · rcases htr with h0 | hno
      · rw [(handleIds_eq_nil a mem).mpr h0]
        exact .refl t
      · exact absurd hc (hno t ep)

/-- A call that reports an error leaves the caller's handle table unchanged exactly if it is traceless. -/
theorem failed_call_keeps_iff {e : Nat} {call : IpcCall} (h : call.run pid k = (.ok e, k')) (he : e ≠ 0) :
    SameFds pid k k' ↔ call.Traceless pid k := by
  cases call with
  | pipe ptr =>
    have hw := pipe_traceless k pid ptr
    rw [wp_of_eq h] at hw
    exact hw he
  | channelCreate ptr =>
    have hw := channelCreate_traceless k pid ptr
    rw [wp_of_eq h] at hw
    exact hw he
  | channelWrite mem a =>
    have hw := channelWrite_traceless k pid mem a
    rw [wp_of_eq h] at hw
    exact hw he

/-- A write to an invalid pointer. -/
theorem failed_call_keeps_twoProcs : ∃ k', IpcCall.run 1 (.channelWrite handleMem ⟨65536, 0, 1, 0, 0⟩) twoProcs =
    (.ok EFAULT, k') ∧ SameFds 1 twoProcs k' := by
  have h : IpcCall.run 1 (.channelWrite handleMem ⟨65536, 0, 1, 0, 0⟩) twoProcs = (.ok EFAULT, _) := rfl
  exact ⟨_, h, (failed_call_keeps_iff h (by decide)).mpr (.inl rfl)⟩

/-- The peer is gone: the write fails, and the memory object has no handle any more. -/
theorem failed_write_drops : ∃ k', IpcCall.run 1 (.channelWrite handleMem ⟨65536, 0, 0, 0x100000000, 1⟩)
    { twoProcs with alive := fun id => id == 0 } = (.ok usizeMax, k') ∧
    ¬SameFds 1 { twoProcs with alive := fun id => id == 0 } k' := by
  refine ⟨_, rfl, fun hsame => ?_⟩
  have hslot := ((sameFds_some rfl rfl).mp hsame).1 1
  revert hslot
  decide +kernel

end Failing
end OpenV
