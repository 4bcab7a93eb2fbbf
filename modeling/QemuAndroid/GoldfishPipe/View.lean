import QemuAndroid.GoldfishPipe.Device

/-!
# The pipe device without pointers

What the device is for, in terms of lists: a `View` has the open pipes, the
signaled pipes in the order the guest will be told about them, and for every
open pipe its contents apart from the two list links.  A view is well formed
(`View.Wf`) when no two pipes share a channel and only open pipes are signaled.

`Represents dev v` connects the two levels: the pointer chains of `dev` are the
lists of `v`.  The lemmas of this file are the commuting squares: each list
operation of the C code, run on a device that represents `v`, returns, and its
result represents the corresponding operation on `v`.
-/

namespace QemuAndroid.GoldfishPipe

open List Option

open QemuAndroid.Lib Function

variable {σ ι : Type}

/-- A pipe apart from its list links. -/
def Pipe.unlinked (n : Pipe σ) : Pipe σ := { n with next := none, nextWaked := none }

@[simp] theorem Pipe.unlinked_channel (n : Pipe σ) : n.unlinked.channel = n.channel := rfl
@[simp] theorem Pipe.unlinked_wanted (n : Pipe σ) : n.unlinked.wanted = n.wanted := rfl
@[simp] theorem Pipe.unlinked_closed (n : Pipe σ) : n.unlinked.closed = n.closed := rfl

/-- The callbacks of a pipe fit its endpoint. -/
def Pipe.Matched (n : Pipe σ) : Prop :=
  match n.funcs, n.opaqueData with
  | .connector, .connector _ => True
  | .service _, .peer _ => True
  | _, _ => False

variable {n : Pipe σ} {dev : PipeDevice σ}

@[simp] theorem Pipe.matched_unlinked : n.unlinked.Matched ↔ n.Matched := Iff.rfl

/-- The device without pointers. -/
structure View (σ : Type) where
  pipes : List Addr
  signaled : List Addr
  node : Addr → Option (Pipe σ)

variable {v : View σ} {a : Addr}

namespace View

/-- Channels identify pipes, and only open pipes are signaled. -/
structure Wf (v : View σ) : Prop where
  pipes_nodup : v.pipes.Nodup
  signaled_nodup : v.signaled.Nodup
  signaled_sub : ∀ a ∈ v.signaled, a ∈ v.pipes
  node_iff : ∀ a, (v.node a).isSome ↔ a ∈ v.pipes
  channel_inj : ∀ a b m n, v.node a = some m → v.node b = some n → m.channel = n.channel → a = b
  matched : ∀ a n, v.node a = some n → n.Matched

theorem Wf.mem_pipes (hv : v.Wf) (hn : v.node a = some n) :
    a ∈ v.pipes := (hv.node_iff a).mp (by simp [hn])

/-- Put a pipe on the list of signaled pipes, unless it is there. -/
def signal (v : View σ) (a : Addr) : List Addr :=
  if a ∈ v.signaled then v.signaled else a :: v.signaled

def setNode (v : View σ) (a : Addr) (n : Pipe σ) : View σ :=
  { v with node := update v.node a (some n) }

def wake (v : View σ) (a : Addr) (n : Pipe σ) (flags : BitVec 32) : View σ :=
  { v with
    signaled := v.signal a
    node := update v.node a (some { n with wanted := n.wanted ||| flags.setWidth 8 }) }

def hostClose (v : View σ) (a : Addr) (n : Pipe σ) : View σ :=
  if n.closed then v
  else v.wake a { n with closed := true } (pipeWakeClosed.setWidth 32)

def openPipe (v : View σ) (a : Addr) (channel : BitVec 64) : View σ :=
  { v with pipes := a :: v.pipes, node := update v.node a (some (pipeNew channel)) }

/-- Take a pipe off both lists. -/
def remove (v : View σ) (a : Addr) : View σ where
  pipes := v.pipes.erase a
  signaled := v.signaled.erase a
  node := update v.node a none

theorem mem_signal {b : Addr} : b ∈ v.signal a ↔ b = a ∨ b ∈ v.signaled := by
  unfold signal
  split
  · next h => exact ⟨.inr, fun hb => hb.elim (fun e => e ▸ h) id⟩
  · simp

section

variable (hv : v.Wf)
include hv

/-- Rewriting the contents of an open pipe keeps the view well formed, as long
as the pipe keeps its channel and its callbacks fit its endpoint. -/
theorem Wf.setNode (hn : v.node a = some n) (n' : Pipe σ) (hch : n'.channel = n.channel)
    (hm : n'.Matched) : (v.setNode a n').Wf where
  pipes_nodup := hv.pipes_nodup
  signaled_nodup := hv.signaled_nodup
  signaled_sub := hv.signaled_sub
  node_iff b := by
    by_cases hb : b = a
    · subst hb
      simpa [setNode] using hv.mem_pipes hn
    · simpa [View.setNode, hb] using hv.node_iff b
  channel_inj b c m k hb hc hch' := by
    have key : ∀ d l, (v.setNode a n').node d = some l →
        ∃ l₀, v.node d = some l₀ ∧ l₀.channel = l.channel := by
      intro d l hd
      by_cases e : d = a
      · subst e
        obtain rfl : n' = l := by simpa [setNode] using hd
        exact ⟨n, hn, hch.symm⟩
      · exact ⟨l, by simpa [View.setNode, e] using hd, rfl⟩
    obtain ⟨m₀, hm₀, em⟩ := key b m hb
    obtain ⟨k₀, hk₀, ek⟩ := key c k hc
    exact hv.channel_inj b c m₀ k₀ hm₀ hk₀ (by rw [em, ek, hch'])
  matched b m hb := by
    by_cases e : b = a
    · subst e
      obtain rfl : n' = m := by simpa [setNode] using hb
      exact hm
    · exact hv.matched b m (by simpa [View.setNode, e] using hb)

theorem Wf.signal (ha : a ∈ v.pipes) : View.Wf { v with signaled := v.signal a } where
  pipes_nodup := hv.pipes_nodup
  signaled_nodup := by
    unfold View.signal
    split
    · exact hv.signaled_nodup
    · next h => exact nodup_cons.mpr ⟨h, hv.signaled_nodup⟩
  signaled_sub b hb := by
    rcases mem_signal.mp hb with rfl | hb
    · exact ha
    · exact hv.signaled_sub b hb
  node_iff := hv.node_iff
  channel_inj := hv.channel_inj
  matched := hv.matched

theorem Wf.wake {n₀ : Pipe σ} (hn : v.node a = some n₀) (hch : n.channel = n₀.channel)
    (hm : n.Matched) (flags : BitVec 32) : (v.wake a n flags).Wf :=
  (hv.signal (hv.mem_pipes hn)).setNode (n := n₀) hn _ hch hm

theorem Wf.hostClose (hn : v.node a = some n) : (v.hostClose a n).Wf := by
  unfold View.hostClose
  split
  · exact hv
  · have hm : n.Matched := hv.matched a n hn
    exact hv.wake (n := { n with closed := true }) hn rfl hm _

theorem Wf.openPipe {channel : BitVec 64} (ha : a ∉ v.pipes)
    (hch : ∀ b n, v.node b = some n → n.channel ≠ channel) : (v.openPipe a channel).Wf where
  pipes_nodup := nodup_cons.mpr ⟨ha, hv.pipes_nodup⟩
  signaled_nodup := hv.signaled_nodup
  signaled_sub b hb := mem_cons_of_mem _ (hv.signaled_sub b hb)
  node_iff b := by
    by_cases hb : b = a
    · simp [View.openPipe, hb]
    · simpa [View.openPipe, hb] using hv.node_iff b
  channel_inj b c m k hb hc hmk := by
    simp only [View.openPipe, update_apply] at hb hc
    split at hb <;> split at hc
    · next hb' hc' => rw [hb', hc']
    · next hb' hc' =>
      obtain rfl := some.inj hb
      exact absurd hmk.symm (hch c k hc)
    · next hb' hc' =>
      obtain rfl := some.inj hc
      exact absurd hmk (hch b m hb)
    · exact hv.channel_inj b c m k hb hc hmk
  matched b m hb := by
    simp only [View.openPipe, update_apply] at hb
    split at hb
    · obtain rfl := some.inj hb
      exact trivial
    · exact hv.matched b m hb

theorem Wf.remove (a : Addr) : (v.remove a).Wf where
  pipes_nodup := hv.pipes_nodup.erase a
  signaled_nodup := hv.signaled_nodup.erase a
  signaled_sub b hb := by
    rw [View.remove, hv.signaled_nodup.mem_erase_iff] at hb
    rw [View.remove, hv.pipes_nodup.mem_erase_iff]
    exact ⟨hb.1, hv.signaled_sub b hb.2⟩
  node_iff b := by
    rw [View.remove, hv.pipes_nodup.mem_erase_iff]
    by_cases hb : b = a
    · simp [hb]
    · simpa [hb] using hv.node_iff b
  channel_inj b c m k hb hc hmk := by
    simp only [View.remove, update_apply, ite_none_left_eq_some] at hb hc
    exact hv.channel_inj b c m k hb.2 hc.2 hmk
  matched b m hb := by
    simp only [View.remove, update_apply, ite_none_left_eq_some] at hb
    exact hv.matched b m hb.2

end

end View

/-! ## Representation -/

/-- The pointer chains of the device are the lists of the view. -/
structure Represents (dev : PipeDevice σ) (v : View σ) : Prop where
  pipes : IsList nextLink dev.heap dev.pipes v.pipes
  signaled : IsList nextWakedLink dev.heap dev.signaledPipes v.signaled
  node : ∀ a, (dev.heap.lookup a).map Pipe.unlinked = v.node a
  off_list : ∀ a n, dev.heap.lookup a = some n → a ∉ v.signaled → n.nextWaked = none

theorem represents_reset :
    Represents (PipeDevice.reset : PipeDevice σ) ⟨[], [], fun _ => none⟩ where
  pipes := rfl
  signaled := rfl
  node _ := rfl
  off_list _ _ h := by cases h

theorem View.wf_empty : View.Wf (⟨[], [], fun _ => none⟩ : View σ) where
  pipes_nodup := nodup_nil
  signaled_nodup := nodup_nil
  signaled_sub _ h := h
  node_iff _ := by simp
  channel_inj _ _ _ _ h := by cases h
  matched _ _ h := by cases h

namespace Represents

variable {dev : PipeDevice σ} {v : View σ} {a : Addr} {n : Pipe σ}

section

variable (h : Represents dev v)
include h

theorem node_of_lookup (hn : dev.heap.lookup a = some n) :
    v.node a = some n.unlinked := by rw [← h.node a, hn]; rfl

theorem lookup_of_node (hn : v.node a = some n) :
    ∃ m, dev.heap.lookup a = some m ∧ m.unlinked = n := by
  rw [← h.node a] at hn
  exact map_eq_some_iff.mp hn

theorem mem_heap (hv : v.Wf) : a ∈ dev.heap ↔ a ∈ v.pipes := by
  rw [← hv.node_iff a, ← h.node a, isSome_map]
  exact AList.lookup_isSome.symm

/-- Device registers do not matter for the representation. -/
theorem congr {dev' : PipeDevice σ} (hh : dev'.heap = dev.heap := by rfl)
    (hp : dev'.pipes = dev.pipes := by rfl)
    (hs : dev'.signaledPipes = dev.signaledPipes := by rfl) : Represents dev' v := by
  obtain ⟨h₁, h₂, h₃, h₄⟩ := h
  exact ⟨by rw [hh, hp]; exact h₁, by rw [hh, hs]; exact h₂, by rw [hh]; exact h₃,
    by rw [hh]; exact h₄⟩

/-- Rewriting the contents of a pipe, links aside. -/
theorem setNode (hn : dev.heap.lookup a = some n) (n' : Pipe σ) (hnext : n'.next = n.next)
    (hwaked : n'.nextWaked = n.nextWaked) :
    Represents { dev with heap := dev.heap.insert a n' } (v.setNode a n'.unlinked) where
  pipes := h.pipes.insert_of_get hn hnext
  signaled := h.signaled.insert_of_get hn hwaked
  node b := by
    simp only [View.setNode, update_apply, Heap.lookup_insert_if]
    split
    · rfl
    · exact h.node b
  off_list b m hb hm := by
    rw [Heap.lookup_insert_if] at hb
    split at hb
    · next e =>
      subst e
      obtain rfl := some.inj hb
      rw [hwaked]
      exact h.off_list b n hn hm
    · exact h.off_list b m hb hm

end

end Represents

/-! ## Searching the lists -/

/-- Looking for a channel finds the pipe that has it, or the end of the list. -/
theorem pipeListFindpChannel_spec (h : Represents dev v) (hv : v.Wf) (ch : BitVec 64) :
    (∃ s, pipeListFindpChannel dev ch = some (s, none) ∧
      ∀ b m, v.node b = some m → m.channel ≠ ch) ∨
    ∃ pre suf a n, v.pipes = pre ++ a :: suf ∧ dev.heap.lookup a = some n ∧ n.channel = ch ∧
      pipeListFindpChannel dev ch = some (Slot.head.after pre, some a) := by
  obtain ⟨pre, suf, hsplit, hpre, hsuf, hfind⟩ :=
    findp_spec (fun _ node => node.channel == ch) h.pipes .head (h.pipes.length_le hv.pipes_nodup)
  cases suf with
  | nil =>
    refine .inl ⟨_, hfind, fun b m hb => ?_⟩
    obtain ⟨m', hm', rfl⟩ := h.lookup_of_node hb
    have hmem : b ∈ pre := by
      rw [append_nil] at hsplit
      exact hsplit ▸ hv.mem_pipes hb
    simpa using hpre b hmem m' hm'
  | cons a suf =>
    obtain ⟨n, hn, hch⟩ := hsuf a rfl
    exact .inr ⟨pre, suf, a, n, hsplit, hn, by simpa using hch, hfind⟩

/-- Looking for a pipe on the list of signaled pipes finds it when it is there. -/
theorem pipeListFindpWaked_spec {heap : Heap (Pipe σ)} {list : Ptr} {ws : List Addr}
    (h : IsList nextWakedLink heap list ws) (hnd : ws.Nodup) (a : Addr) :
    (∃ s, pipeListFindpWaked list heap a = some (s, none) ∧ a ∉ ws) ∨
    ∃ pre suf, ws = pre ++ a :: suf ∧
      pipeListFindpWaked list heap a = some (Slot.head.after pre, some a) := by
  obtain ⟨pre, suf, rfl, hpre, hsuf, hfind⟩ :=
    findp_spec (fun b _ => b == a) h .head (h.length_le hnd)
  cases suf with
  | nil =>
    refine .inl ⟨_, hfind, fun hmem => ?_⟩
    rw [append_nil] at hmem h
    obtain ⟨m, hm⟩ := Heap.exists_lookup (h.mem_heap hmem)
    simpa using hpre a hmem m hm
  | cons b suf =>
    obtain ⟨-, -, hb⟩ := hsuf b rfl
    obtain rfl : b = a := by simpa using hb
    exact .inr ⟨pre, suf, rfl, hfind⟩

/-! ## The commuting squares -/

theorem qemuPipeWake_spec (h : Represents dev v) (hv : v.Wf) (hn : v.node a = some n)
    (flags : BitVec 32) :
    ∃ dev', qemuPipeWake a flags dev = some dev' ∧ Represents dev' (v.wake a n flags) ∧
      dev' = { dev with heap := dev'.heap, signaledPipes := dev'.signaledPipes, irq := true } := by
  obtain ⟨m, hm, rfl⟩ := h.lookup_of_node hn
  rcases pipeListFindpWaked_spec h.signaled hv.signaled_nodup a with ⟨s, hfind, hnot⟩ |
    ⟨pre, suf, hsplit, hfind⟩
  · -- not on the list: pushed at the front
    refine ⟨_, by simp only [qemuPipeWake, hfind, hm, bind_some, map_some, if_true]; rfl, ?_, rfl⟩
    have hsig : v.signal a = a :: v.signaled := if_neg hnot
    refine ⟨h.pipes.insert_of_get hm rfl, ?_, fun b => ?_, fun b k hb hmem => ?_⟩
    · simpa only [View.wake, hsig] using h.signaled.push hnot rfl
    · simp only [View.wake, update_apply, Heap.lookup_insert_if]
      split
      · rfl
      · exact h.node b
    · simp only [View.wake, hsig, mem_cons, not_or] at hmem
      rw [AList.lookup_insert_ne hmem.1] at hb
      exact h.off_list b k hb hmem.2
  · -- already there: only the flags change
    have hmem : a ∈ v.signaled := by rw [hsplit]; simp
    have hsig : v.signal a = v.signaled := if_pos hmem
    simp only [qemuPipeWake, hfind, hm, bind_some, map_some, reduceCtorEq, if_false]
    refine ⟨_, rfl, ?_, rfl⟩
    have hrep := h.setNode hm { m with wanted := m.wanted ||| flags.setWidth 8 } rfl rfl
    rw [View.wake, hsig]
    exact hrep.congr

theorem qemuPipeClose_spec (h : Represents dev v) (hv : v.Wf) (hn : v.node a = some n) :
    ∃ dev', qemuPipeClose a dev = some dev' ∧ Represents dev' (v.hostClose a n) ∧
      dev' = { dev with heap := dev'.heap, signaledPipes := dev'.signaledPipes,
                        irq := if n.closed then dev.irq else true } := by
  obtain ⟨m, hm, rfl⟩ := h.lookup_of_node hn
  by_cases hc : m.closed = true
  · refine ⟨dev, by simp [qemuPipeClose, hm, hc], ?_, by simp [hc]⟩
    rw [View.hostClose, if_pos (by simpa using hc)]
    exact h
  set n' : Pipe σ := { m with closed := true }
  have hrep := h.setNode hm n' rfl rfl
  have hmat : m.unlinked.Matched := hv.matched a _ hn
  have hwf : (v.setNode a n'.unlinked).Wf := hv.setNode hn _ rfl hmat
  obtain ⟨dev', hd, hr, he⟩ := qemuPipeWake_spec hrep hwf (a := a) (n := n'.unlinked)
    (by simp [View.setNode]) (pipeWakeClosed.setWidth 32)
  refine ⟨dev', by simp [qemuPipeClose, hm, hc, ← hd, n'], ?_, ?_⟩
  · rw [View.hostClose, if_neg (by simpa using hc)]
    rwa [show (v.setNode a n'.unlinked).wake a n'.unlinked (pipeWakeClosed.setWidth 32) =
      v.wake a { m.unlinked with closed := true } (pipeWakeClosed.setWidth 32) by
        simp only [View.wake, View.setNode, View.signal, update_idem]; rfl] at hr
  · rw [he]
    simp [hc]

/-- `PIPE_CMD_OPEN` on a channel that has no pipe. -/
theorem doOpen_spec (h : Represents dev v) (hv : v.Wf) {b : BusIn ι} (hb : b.fresh ∉ dev.heap) :
    Represents (doOpen b dev) (v.openPipe b.fresh dev.channel) := by
  have hfresh : b.fresh ∉ v.pipes := fun hmem => hb ((h.mem_heap hv).mpr hmem)
  refine ⟨h.pipes.push hfresh rfl, ?_, fun a => ?_, fun a n ha hmem => ?_⟩
  · exact h.signaled.insert_of_notMem fun hmem => hfresh (hv.signaled_sub _ hmem)
  · simp only [View.openPipe, doOpen, update_apply, Heap.lookup_insert_if]
    split
    · rfl
    · exact h.node a
  rw [doOpen, Heap.lookup_insert_if] at ha
  split at ha
  · obtain rfl := some.inj ha
    rfl
  · exact h.off_list a n ha hmem

theorem not_mem_of_nodup {pre suf : List Addr} (h : (pre ++ a :: suf).Nodup) :
    a ∉ pre ∧ a ∉ suf := by
  rw [nodup_middle, nodup_cons, mem_append, not_or] at h
  exact h.1

/-- `pipe_list_remove_waked` takes the pipe off the list of signaled pipes, if it
is there, and writes nothing but `next_waked` fields. -/
theorem pipeListRemoveWaked_spec {heap : Heap (Pipe σ)} {list : Ptr} {ws : List Addr}
    (h : IsList nextWakedLink heap list ws) (hnd : ws.Nodup) (a : Addr) :
    ∃ list' heap', pipeListRemoveWaked list heap a = some (list', heap') ∧
      IsList nextWakedLink heap' list' (ws.erase a) ∧ ∀ b, heap'.lookup b = heap.lookup b ∨ b ∈ ws ∧
        ∃ m q, heap.lookup b = some m ∧ heap'.lookup b = some { m with nextWaked := q } := by
  rcases pipeListFindpWaked_spec h hnd a with ⟨s, hfind, hnot⟩ | ⟨pre, suf, rfl, hfind⟩
  · refine ⟨list, heap, by simp [pipeListRemoveWaked, hfind], ?_, fun b => .inl rfl⟩
    rwa [erase_of_not_mem hnot]
  obtain ⟨n, hn⟩ := Heap.exists_lookup (h.mem_heap (a := a) (by simp))
  obtain ⟨list', heap₁, hstore, hlist, hlook⟩ := h.unlink hnd hn
  obtain ⟨hpre, hsuf⟩ := not_mem_of_nodup hnd
  have hn₁ : heap₁.lookup a = some n := by
    rcases hlook a with e | ⟨hmem, -⟩
    · rw [e, hn]
    · exact absurd hmem hpre
  refine ⟨list', heap₁.insert a { n with nextWaked := none }, ?_, ?_, fun b => ?_⟩
  · rw [pipeListRemoveWaked, hfind]
    simp only [bind_some, hn]
    rw [show n.nextWaked = nextWakedLink.get n from rfl, hstore]
    simp [Heap.modify_of_lookup hn₁]
  · rw [erase_append_right _ hpre, erase_cons_head]
    exact hlist.insert_of_notMem (by simp [hpre, hsuf])
  rw [Heap.lookup_insert_if]
  split
  · next e =>
    subst e
    exact .inr ⟨by simp, n, none, hn, rfl⟩
  · rcases hlook b with e | ⟨hmem, m, q, hm, hm'⟩
    · exact .inl e
    · exact .inr ⟨by simp [hmem], m, q, hm, hm'⟩

/-- `PIPE_CMD_CLOSE` on the pipe that the search for its channel stopped at. -/
theorem doClose_spec (h : Represents dev v) (hv : v.Wf) {pre suf : List Addr}
    (hsplit : v.pipes = pre ++ a :: suf) (hn : dev.heap.lookup a = some n) :
    ∃ dev', doClose (Slot.head.after pre) a n dev = some dev' ∧ Represents dev' (v.remove a) ∧
      dev' = { dev with heap := dev'.heap, pipes := dev'.pipes,
                        signaledPipes := dev'.signaledPipes } := by
  have hnd := hsplit ▸ hv.pipes_nodup
  obtain ⟨hpre, hsuf⟩ := not_mem_of_nodup hnd
  -- off the list of all pipes
  obtain ⟨pipes, heap₁, hstore, hlist₁, hlook₁⟩ := (hsplit ▸ h.pipes).unlink hnd hn
  have hn₁ : heap₁.lookup a = some n := by
    rcases hlook₁ a with e | ⟨hmem, -⟩
    · rw [e, hn]
    · exact absurd hmem hpre
  set heap₂ : Heap (Pipe σ) := heap₁.insert a { n with next := none }
  have hlook₂ :
      ∀ b, ∃ q, heap₂.lookup b = (dev.heap.lookup b).map fun m => { m with next := q } := by
    intro b
    simp only [heap₂, Heap.lookup_insert_if]
    split
    · next e =>
      subst e
      exact ⟨none, by rw [hn]; rfl⟩
    rcases hlook₁ b with e | ⟨-, m, q, hm, hset⟩
    · rw [e]
      cases hb : dev.heap.lookup b with
      | none => exact ⟨none, rfl⟩
      | some m => exact ⟨m.next, rfl⟩
    · exact ⟨q, by rw [hset, hm]; rfl⟩
  have hsig₂ : IsList nextWakedLink heap₂ dev.signaledPipes v.signaled :=
    h.signaled.frame fun b _ m hm => by
      obtain ⟨q, hq⟩ := hlook₂ b
      exact ⟨{ m with next := q }, by rw [hq, hm]; rfl, rfl⟩
  -- off the list of signaled pipes
  obtain ⟨signaled, heap₃, hremove, hlist₃, hlook₃⟩ :=
    pipeListRemoveWaked_spec hsig₂ hv.signaled_nodup a
  refine ⟨{ dev with heap := heap₃.erase a, pipes := pipes, signaledPipes := signaled }, ?_,
    ?_, rfl⟩
  · rw [doClose, show n.next = nextLink.get n from rfl, hstore]
    simp only [bind_some, Heap.modify_of_lookup hn₁]
    rw [hremove]
    rfl
  refine ⟨?_, hlist₃.erase_of_notMem ?_, fun b => ?_, fun b m hb hmem => ?_⟩
  · have herase : v.pipes.erase a = pre ++ suf := by
      rw [hsplit, erase_append_right _ hpre, erase_cons_head]
    rw [View.remove, herase]
    have hnot : a ∉ pre ++ suf := by simp [hpre, hsuf]
    have hlist₂ : IsList nextLink heap₂ pipes (pre ++ suf) := hlist₁.insert_of_notMem hnot
    refine (hlist₂.frame fun b _ m hm => ?_).erase_of_notMem hnot
    rcases hlook₃ b with e | ⟨-, m', q, hm', hset⟩
    · exact ⟨m, by rw [e]; exact hm, rfl⟩
    · obtain rfl : m = m' := some.inj (hm.symm.trans hm')
      exact ⟨_, hset, rfl⟩
  · exact fun hmem => (hv.signaled_nodup.mem_erase_iff.mp hmem).1 rfl
  · by_cases e : b = a
    · subst e
      simp [View.remove, AList.lookup_erase]
    have h₃ : (heap₃.lookup b).map Pipe.unlinked = (heap₂.lookup b).map Pipe.unlinked := by
      rcases hlook₃ b with e | ⟨-, m, q, hm, hset⟩
      · rw [e]
      · rw [hset, hm]; rfl
    obtain ⟨q, hq⟩ := hlook₂ b
    simp only [View.remove, update_apply, if_neg e, AList.lookup_erase_ne e]
    rw [h₃, hq, ← h.node b, Option.map_map]
    rfl
  · by_cases e : b = a
    · subst e
      simp [AList.lookup_erase] at hb
    have hws : b ∉ v.signaled := fun hws => hmem (hv.signaled_nodup.mem_erase_iff.mpr ⟨e, hws⟩)
    obtain ⟨q, hq⟩ := hlook₂ b
    rw [AList.lookup_erase_ne e] at hb
    rcases hlook₃ b with e₃ | ⟨hws', -⟩
    · rw [e₃, hq] at hb
      obtain ⟨m₀, hm₀, rfl⟩ := map_eq_some_iff.mp hb
      exact h.off_list b m₀ hm₀ hws
    · exact absurd hws' hws

/-- Take the first pipe off the list of signaled pipes and forget its flags. -/
def View.pop (v : View σ) (a : Addr) (n : Pipe σ) : View σ :=
  { v with
    signaled := v.signaled.tail
    node := update v.node a (some { n with wanted := 0 }) }

theorem View.Wf.pop {v : View σ} (hv : v.Wf) {a : Addr} {n : Pipe σ} (hn : v.node a = some n) :
    (v.pop a n).Wf := by
  have hm : n.Matched := hv.matched a n hn
  have hset := hv.setNode hn { n with wanted := 0 } rfl hm
  exact { hset with
    signaled_nodup := hv.signaled_nodup.tail
    signaled_sub := fun b hb => hv.signaled_sub b (mem_of_mem_tail hb) }

/-- A read of the channel register hands out the first signaled pipe. -/
theorem pipeDevRead_channel_spec (h : Represents dev v) (hv : v.Wf) {offset : BitVec 64}
    (hreg : Reg.ofOffset offset = some .channel) :
    (v.signaled = [] ∧ pipeDevRead offset dev = some (0, dev)) ∨
    ∃ a ws n dev', v.signaled = a :: ws ∧ v.node a = some n ∧
      pipeDevRead offset dev = some (n.channel &&& 0xffffffff#64, dev') ∧
      Represents dev' (v.pop a n) ∧
      dev' = { dev with heap := dev'.heap, signaledPipes := dev'.signaledPipes,
                        wakes := n.wanted.setWidth 32,
                        irq := if ws = [] then false else dev.irq } := by
  rcases hs : v.signaled with _ | ⟨a, ws⟩
  · have hnone : dev.signaledPipes = none := IsList.nil_iff.mp (hs ▸ h.signaled)
    exact .inl ⟨rfl, by simp [pipeDevRead, hreg, hnone]⟩
  have hsig := hs ▸ h.signaled
  obtain ⟨hhead, m, hm, hrest⟩ := hsig
  have hnot : a ∉ ws := (nodup_cons.mp (hs ▸ hv.signaled_nodup)).1
  refine .inr ⟨a, ws, m.unlinked, _, rfl, h.node_of_lookup hm,
    by simp only [pipeDevRead, hreg, hhead, hm, map_some]; rfl, ?_, ?_⟩
  · refine ⟨h.pipes.insert_of_get hm rfl, ?_, fun b => ?_, fun b k hb hmem => ?_⟩
    · rw [View.pop, hs]
      exact hrest.insert_of_notMem hnot
    · simp only [View.pop, update_apply, Heap.lookup_insert_if]
      split
      · rfl
      · exact h.node b
    rw [Heap.lookup_insert_if] at hb
    split at hb
    · obtain rfl := some.inj hb
      rfl
    · next e =>
      refine h.off_list b k hb fun hws => hmem ?_
      rw [hs, mem_cons] at hws
      simpa [View.pop, hs] using hws.resolve_left e
  · have hend : m.nextWaked = none ↔ ws = [] := hrest.eq_none_iff
    simp [hend]

end QemuAndroid.GoldfishPipe
