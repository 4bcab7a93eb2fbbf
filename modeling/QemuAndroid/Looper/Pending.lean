import QemuAndroid.Looper.Model

/-!
# The pending list of a looper

A looper stands for the list of its ios, the list of its pending ios and, for each io, the data that
are not links (`Represents`).  Every function is described once in these terms.  The ready mask
doubles as the flag for membership in the pending list, which is the main part of the invariant of a
run (`LooperInv`): no function and no callback can separate the two, so no freed io is ever called.
-/

namespace QemuAndroid.Looper

open Lib Function List Option Heap QLooper BitVec QLoopIo

/-! ## What the two lists stand for -/

structure IoData where
  fd : Nat
  wanted : BitVec 32
  ready : BitVec 32

def QLoopIo.data (n : QLoopIo) : IoData := ⟨n.fd, n.wanted, n.ready⟩

/-- The looper has the ios `all`, the pending ios `pend`, and the data `D`. -/
structure Represents (l : QLooper) (all pend : List Addr) (D : Addr → Option IoData) : Prop where
  isAll : IsList nextLink l.ios l.ioList all
  isPend : IsList pendingLink l.ios l.ioPending pend
  nodupAll : all.Nodup
  nodupPend : pend.Nodup
  data : ∀ a, (l.ios.lookup a).map data = D a

variable {l : QLooper} {all pend : List Addr} {D : Addr → Option IoData} {a io : Addr} {d : IoData}

namespace Represents

section

variable (h : Represents l all pend D)
include h

theorem lookup (hd : D a = some d) : ∃ n, l.ios.lookup a = some n ∧ n.data = d :=
  map_eq_some_iff.1 ((h.data a).trans hd)

theorem data_of_lookup {n : QLoopIo} (hn : l.ios.lookup a = some n) : D a = some n.data := by
  rw [← h.data a, hn]
  rfl

theorem exists_lookup (ha : a ∈ l.ios) : ∃ n, l.ios.lookup a = some n ∧ D a = some n.data := by
  obtain ⟨n, hn⟩ := Heap.exists_lookup ha
  exact ⟨n, hn, h.data_of_lookup hn⟩

/-- The data of a heap in which one node has been written. -/
theorem data_insert (a : Addr) (n' : QLoopIo) (b : Addr) :
    ((l.ios.insert a n' : Heap QLoopIo).lookup b).map QLoopIo.data =
      update D a (some n'.data) b := by
  rw [lookup_insert_if]
  by_cases hb : b = a
  · subst hb
    rw [if_pos rfl, update_self]
    rfl
  · rw [if_neg hb, update_of_ne hb]
    exact h.data b

/-- The data of a heap in which only a link has been written. -/
theorem data_insert_same {n n' : QLoopIo} (hn : l.ios.lookup a = some n) (hsame : n'.data = n.data)
    (b : Addr) : ((l.ios.insert a n' : Heap QLoopIo).lookup b).map QLoopIo.data = D b := by
  rw [h.data_insert, hsame, ← h.data_of_lookup hn, update_eq_self]

/-- An io is written, but not its links. -/
theorem write {n n' : QLoopIo} (hn : l.ios.lookup a = some n) (hnext : n'.next = n.next)
    (hpending : n'.pendingNext = n.pendingNext) :
    Represents { l with ios := l.ios.insert a n' } all pend (update D a (some n'.data)) where
  isAll := h.isAll.insert_of_get hn hnext
  isPend := h.isPend.insert_of_get hn hpending
  nodupAll := h.nodupAll
  nodupPend := h.nodupPend
  data := h.data_insert a n'

/-- A list is searched for an io, which is taken out and its link is cleared: the other lists and
the data stay. -/
theorem remove {L : Link QLoopIo} (hL : ∀ p n, (L.set p n).data = n.data) {p : Ptr} {xs : List Addr}
    (hx : IsList L l.ios p xs) (hnd : xs.Nodup) (hio : io ∈ xs) :
    ∃ n slot p' ios n', l.ios.lookup io = some n ∧
      findp L l.ios (fun b _ => b == io) l.ios.fuel .head p = some (slot, some io) ∧
      slot.store L (L.get n) p l.ios = some (p', ios) ∧ ios.lookup io = some n' ∧
      IsList L (ios.insert io (L.set none n')) p' (xs.erase io) ∧
      (∀ (L' : Link QLoopIo) {q : Ptr} {ys : List Addr}, (∀ p n, L'.get (L.set p n) = L'.get n) →
        IsList L' l.ios q ys → IsList L' (ios.insert io (L.set none n')) q ys) ∧
      ∀ b, ((ios.insert io (L.set none n') : Heap QLoopIo).lookup b).map QLoopIo.data = D b := by
  obtain ⟨n, hn⟩ := Heap.exists_lookup (hx.mem_heap hio)
  obtain ⟨slot, p', ios, hfind, hstore, hlist, hlink⟩ := hx.findp_remove hnd hio hn
  obtain ⟨n', hn', hdata⟩ : ∃ n', ios.lookup io = some n' ∧ n'.data = n.data := by
    rcases hlink io with heq | ⟨m, q, hm, hset⟩
    · exact ⟨n, heq.trans hn, rfl⟩
    · obtain rfl : m = n := some.inj (hm.symm.trans hn)
      exact ⟨_, hset, hL q m⟩
  refine ⟨n, slot, p', ios, n', hn, hfind, hstore, hn',
    hlist.insert_of_notMem hnd.not_mem_erase, fun L' q ys hL' hy => ?_, fun b => ?_⟩
  · refine IsList.insert_of_get (hy.frame fun b _ m hm => ?_) hn' (hL' none n')
    rcases hlink b with heq | ⟨m', q, hm', hset⟩
    · exact ⟨m, heq.trans hm, rfl⟩
    · obtain rfl : m' = m := some.inj (hm'.symm.trans hm)
      exact ⟨_, hset, hL' q m'⟩
  rw [lookup_insert_if, ← h.data b]
  split
  · next hb => rw [hb, hn, map_some, map_some, hL, hdata]
  · rcases hlink b with heq | ⟨m, q, hm, hset⟩
    · rw [heq]
    · rw [hset, hm, map_some, map_some, hL]

end

end Represents

namespace QLooper

section

variable (h : Represents l all pend D)
include h

theorem addPendingIo_spec (hd : D io = some d) (hio : io ∉ pend) :
    ∃ l', l.addPendingIo io = some l' ∧ Represents l' all (io :: pend) D ∧
      l'.handlers = l.handlers ∧ l'.scheduled = (l.scheduled || l.ioPending.isNone) := by
  obtain ⟨n, hn, rfl⟩ := h.lookup hd
  refine ⟨{ l with
    ios := l.ios.insert io { n with pendingNext := l.ioPending }
    ioPending := some io
    scheduled := l.scheduled || l.ioPending.isNone }, ?_, ?_, rfl, rfl⟩
  · rw [addPendingIo, modify_of_lookup hn]
    rfl
  constructor
  · exact h.isAll.insert_of_get hn rfl
  · exact h.isPend.push hio rfl
  · exact h.nodupAll
  · exact nodup_cons.2 ⟨hio, h.nodupPend⟩
  · exact h.data_insert_same hn rfl

theorem delPendingIo_spec (hio : io ∈ pend) :
    ∃ l', l.delPendingIo io = some l' ∧ Represents l' all (pend.erase io) D ∧
      l'.handlers = l.handlers ∧ l'.scheduled = l.scheduled := by
  obtain ⟨n, slot, p, ios, n', hn, hfind, hstore, hn', hlist, hother, hdata⟩ :=
    h.remove (L := pendingLink) (fun _ _ => rfl) h.isPend h.nodupPend hio
  refine ⟨{ l with ios := ios.insert io { n' with pendingNext := none }, ioPending := p }, ?_,
    ⟨hother nextLink (fun _ _ => rfl) h.isAll, hlist, h.nodupAll, h.nodupPend.erase io, hdata⟩,
    rfl, rfl⟩
  have hstore' : slot.store pendingLink n.pendingNext l.ioPending l.ios = some (p, ios) := hstore
  simp only [delPendingIo, hfind, hn, hstore', modify_of_lookup hn', bind_eq_bind, bind_some]

theorem delIo_spec (hio : io ∈ all) :
    ∃ l', l.delIo io = some l' ∧ Represents l' (all.erase io) pend D ∧
      l'.handlers = l.handlers ∧ l'.scheduled = l.scheduled := by
  obtain ⟨n, slot, p, ios, n', hn, hfind, hstore, hn', hlist, hother, hdata⟩ :=
    h.remove (L := nextLink) (fun _ _ => rfl) h.isAll h.nodupAll hio
  refine ⟨{ l with ios := ios.insert io { n' with next := none }, ioList := p }, ?_,
    ⟨hlist, hother pendingLink (fun _ _ => rfl) h.isPend, h.nodupAll.erase io, h.nodupPend, hdata⟩,
    rfl, rfl⟩
  have hstore' : slot.store nextLink n.next l.ioList l.ios = some (p, ios) := hstore
  simp only [delIo, hfind, hn, hstore', modify_of_lookup hn', bind_eq_bind, bind_some]

end

end QLooper

/-! ## One call -/

/-- A handler is for the file descriptor of an io, and for events that the io wants. -/
structure IoData.Served (d : IoData) (fd : Nat) (h : FdHandler) : Prop where
  fd_eq : d.fd = fd
  read : h.fdRead = true → loopIoRead &&& ~~~d.wanted = 0#32
  write : h.fdWrite = true → loopIoWrite &&& ~~~d.wanted = 0#32

/-- The invariant of a looper between two calls.  The last part is for the runs in which no event is
ready that is not wanted. -/
structure LooperInv (strict : Prop) (l : QLooper) (all pend : List Addr)
    (D : Addr → Option IoData) : Prop where
  rep : Represents l all pend D
  registered : ∀ a d, D a = some d → a ∈ all
  marked : ∀ a d, D a = some d → (a ∈ pend ↔ d.ready ≠ 0#32)
  handled : ∀ fd h, l.handlers fd = some h → ∃ d, D h.io = some d ∧ d.Served fd h
  masked : strict → ∀ a d, D a = some d → d.ready &&& ~~~d.wanted = 0#32

/-- The invariant holds, and somebody is going to empty the pending list: the bottom half is
scheduled or one of its `draining` runs is. -/
def Looked (strict : Prop) (draining : Nat) (l : QLooper) : Prop :=
  ∃ all pend D, LooperInv strict l all pend D ∧ (pend ≠ [] → l.scheduled = true ∨ 0 < draining)

/-- What holds of the data of all ios when the data of one change. -/
theorem forall_update {P : Addr → IoData → Prop} {o : Option IoData}
    (hself : ∀ d, o = some d → P io d) (hothers : ∀ a d, a ≠ io → D a = some d → P a d) (a : Addr)
    (e : IoData) (he : update D io o a = some e) : P a e := by
  by_cases hio : a = io
  · subst hio
    rw [update_self] at he
    exact hself e he
  · rw [update_of_ne hio] at he
    exact hothers a e hio he

variable {strict : Prop}

namespace LooperInv

/-- The mask of an io changes together with the list. -/
theorem write (h : LooperInv strict l all pend D) (hd : D io = some d) {l' : QLooper}
    {pend' : List Addr} {ready : BitVec 32}
    (hrep : Represents l' all pend' (update D io (some { d with ready := ready })))
    (hhandlers : l'.handlers = l.handlers) (hothers : ∀ a, a ≠ io → (a ∈ pend' ↔ a ∈ pend))
    (hself : io ∈ pend' ↔ ready ≠ 0#32) (hmask : strict → ready &&& ~~~d.wanted = 0#32) :
    LooperInv strict l' all pend' (update D io (some { d with ready := ready })) := by
  refine ⟨hrep, forall_update ?_ fun a e _ => h.registered a e, forall_update ?_ fun a e ha he =>
    (hothers a ha).trans (h.marked a e he), fun fd f hf => ?_,
    fun hs => forall_update ?_ fun a e _ => h.masked hs a e⟩
  · exact fun _ _ => h.registered io d hd
  · rintro _ ⟨⟩
    exact hself
  · obtain ⟨e, he, hserved⟩ := h.handled fd f (hhandlers ▸ hf)
    by_cases hio : f.io = io
    · rw [hio, update_self]
      rw [hio, hd] at he
      cases he
      exact ⟨_, rfl, hserved.fd_eq, hserved.read, hserved.write⟩
    · rw [update_of_ne hio]
      exact ⟨e, he, hserved⟩
  · rintro _ ⟨⟩
    exact hmask hs

end LooperInv

namespace QLooper

theorem removePending_spec (h : LooperInv strict l all pend D) (hd : D io = some d) :
    ∃ l', l.removePending io = some l' ∧
      LooperInv strict l' all (pend.erase io) (update D io (some { d with ready := 0#32 })) ∧
      l'.scheduled = l.scheduled := by
  obtain ⟨n, hn, rfl⟩ := h.rep.lookup hd
  have hmark := h.marked io _ hd
  by_cases hready : n.ready = 0#32
  · have hnot : io ∉ pend := fun hmem => hmark.1 hmem hready
    have hdata : some ({ n.data with ready := 0#32 } : IoData) = D io := by
      rw [hd, ← hready]
      rfl
    refine ⟨l, ?_, ?_, rfl⟩
    · simp [removePending, hn, hready]
    · rw [hdata, update_eq_self, erase_of_not_mem hnot]
      exact h
  obtain ⟨l', hdel, hrep, hhandlers, hsched⟩ := delPendingIo_spec h.rep (hmark.2 hready)
  obtain ⟨m, hm, hmd⟩ := hrep.lookup hd
  rw [← hmd] at hd ⊢
  refine ⟨{ l' with ios := l'.ios.insert io { m with ready := 0#32 } }, ?_, ?_, hsched⟩
  · simp [removePending, hn, hready, hdel, modify_of_lookup hm]
  · exact h.write hd (hrep.write hm rfl rfl) hhandlers (fun a ha => mem_erase_of_ne ha)
      (iff_of_false h.rep.nodupPend.not_mem_erase (not_not.2 rfl)) fun _ => zero_and

variable {flag wanted : BitVec 32}

variable {k : Nat}

theorem setReady_looked {fd : Nat} {f : FdHandler} (h : Looked strict k l)
    (hf : l.handlers fd = some f) (hflag : ∀ r : BitVec 32, r ||| flag ≠ 0#32)
    (hserves : ∀ d : IoData, d.Served fd f → flag &&& ~~~d.wanted = 0#32) :
    ∃ l', l.setReady f.io flag = some l' ∧ Looked strict k l' := by
  obtain ⟨all, pend, D, hinv, hbusy⟩ := h
  obtain ⟨d, hd, hserved⟩ := hinv.handled fd f hf
  obtain ⟨n, hn, rfl⟩ := hinv.rep.lookup hd
  have hmark := hinv.marked f.io _ hd
  have hmask (hs : strict) : (n.data.ready ||| flag) &&& ~~~n.data.wanted = 0#32 := by
    rw [and_or_distrib_right, hinv.masked hs _ _ hd, hserves _ hserved, BitVec.or_self]
  by_cases hready : n.ready = 0#32
  · have hnot : f.io ∉ pend := fun hmem => hmark.1 hmem hready
    obtain ⟨l', hadd, hrep, hhandlers, hsched⟩ := addPendingIo_spec hinv.rep hd hnot
    obtain ⟨m, hm, hmd⟩ := hrep.lookup hd
    rw [← hmd] at hd hmask
    refine ⟨{ l' with ios := l'.ios.insert f.io { m with ready := m.ready ||| flag } }, ?_,
      all, f.io :: pend, _, hinv.write hd (hrep.write hm rfl rfl) hhandlers
        (fun a ha => ?_) (iff_of_true mem_cons_self (hflag _)) hmask, fun _ => ?_⟩
    · simp [setReady, hn, hready, hadd, modify_of_lookup hm]
    · rw [mem_cons, or_iff_right ha]
    -- the bottom half is scheduled if the list was empty, otherwise somebody was looking already
    by_cases hpend : pend = []
    · left
      have hnone := hinv.rep.isPend.eq_none_iff.2 hpend
      rw [hsched, hnone]
      exact Bool.or_true _
    rcases hbusy hpend with hs | hk
    · left
      rw [hsched, hs]
      rfl
    · exact .inr hk
  · refine ⟨{ l with ios := l.ios.insert f.io { n with ready := n.ready ||| flag } }, ?_,
      all, pend, _, hinv.write hd (hinv.rep.write hn rfl rfl) rfl (fun _ _ => Iff.rfl)
        (iff_of_true (hmark.2 hready) (hflag _)) hmask, hbusy⟩
    simp [setReady, hn, hready, modify_of_lookup hn]

@[simp] theorem setFdHandler_self (l : QLooper) (fd : Nat) (r w : Bool) (io : Addr) :
    (l.setFdHandler fd r w io).handlers fd = if !r && !w then none else some ⟨r, w, io⟩ :=
  update_self ..

theorem setFdHandler_of_ne (l : QLooper) {fd fd' : Nat} (hne : fd' ≠ fd) (r w : Bool) (io : Addr) :
    (l.setFdHandler fd r w io).handlers fd' = l.handlers fd' :=
  update_of_ne hne ..

/-- A bit that is set is wanted. -/
theorem flag_and_not {i : Nat}
    (h : (wanted &&& twoPow 32 i ≠ 0#32 : Bool) = true) :
    twoPow 32 i &&& ~~~wanted = 0#32 := by
  rw [decide_eq_true_eq, and_twoPow] at h
  rw [BitVec.and_comm, and_twoPow, getLsbD_not]
  by_cases hi : wanted.getLsbD i
  · rw [hi, Bool.not_true, Bool.and_false]
    rfl
  · exact absurd (if_neg hi) h

/-- The last two steps of `qloopio_modify`. -/
theorem setWanted_inv (h : LooperInv strict l all pend D) (hd : D io = some d) (wanted : BitVec 32)
    (hmask : strict → d.ready &&& ~~~wanted = 0#32) {l₁ : QLooper}
    (hl₁ : l.setFdHandler d.fd (wanted &&& loopIoRead ≠ 0#32) (wanted &&& loopIoWrite ≠ 0#32)
      io = l₁) : ∃ l', (l₁.ios.modify io fun n => { n with wanted := wanted }).map
        (fun ios => { l₁ with ios := ios }) = some l' ∧
      LooperInv strict l' all pend (update D io (some { d with wanted := wanted })) ∧
      l'.scheduled = l.scheduled := by
  obtain ⟨n, hn, rfl⟩ := h.rep.lookup hd
  have hrep := @Represents.write _ _ _ _ _ h.rep n { n with wanted := wanted } hn rfl rfl
  subst hl₁
  refine ⟨{ l.setFdHandler n.fd _ _ io with ios := l.ios.insert io { n with wanted := wanted } },
    congrArg (Option.map _) (modify_of_lookup hn),
    ⟨⟨hrep.isAll, hrep.isPend, hrep.nodupAll, hrep.nodupPend, hrep.data⟩,
      forall_update ?_ fun a e _ => h.registered a e, forall_update ?_ fun a e _ => h.marked a e,
      fun fd f hf => ?_, fun hs => forall_update ?_ fun a e _ => h.masked hs a e⟩, rfl⟩
  · exact fun _ _ => h.registered io _ hd
  · rintro _ ⟨⟩
    exact h.marked io n.data hd
  · by_cases hfd : fd = n.fd
    · subst hfd
      obtain ⟨-, hf⟩ := ite_none_left_eq_some.1 ((setFdHandler_self l ..).symm.trans hf)
      cases hf
      exact ⟨_, update_self .., rfl, flag_and_not (i := 0), flag_and_not (i := 1)⟩
    obtain ⟨e, he, hserved⟩ := h.handled fd f ((setFdHandler_of_ne l hfd _ _ io).symm.trans hf)
    refine ⟨e, ?_, hserved⟩
    rw [update_of_ne, he]
    intro hio
    rw [hio, hd] at he
    cases he
    exact hfd hserved.fd_eq.symm
  · rintro _ ⟨⟩
    exact hmask hs

section

variable (h : Looked strict k l)
include h

theorem ioModify_looked {n : QLoopIo} (hn : l.ios.lookup io = some n)
    (hok : strict → n.ready &&& ~~~n.wanted = 0#32 → n.ready &&& wanted = 0#32 ∨
      n.ready &&& ~~~wanted = 0#32) :
    ∃ l', l.ioModify io wanted = some l' ∧ Looked strict k l' := by
  obtain ⟨all, pend, D, hinv, hbusy⟩ := h
  have hd := hinv.rep.data_of_lookup hn
  by_cases hsame : wanted = n.wanted
  · exact ⟨l, by simp [ioModify, hn, hsame], all, pend, D, hinv, hbusy⟩
  by_cases hpending : n.ready ≠ 0#32 ∧ n.ready &&& wanted = 0#32
  · obtain ⟨m, hremove, hminv, hmsched⟩ := removePending_spec hinv hd
    obtain ⟨l', hl', hinv', hsched⟩ := setWanted_inv hminv (update_self ..) wanted
      (fun _ => zero_and) rfl
    refine ⟨l', ?_, all, _, _, hinv', fun hne => ?_⟩
    · rw [← hl']
      simp only [ioModify, hn, hsame, hremove, if_pos hpending, bind_eq_bind, bind_some, if_false]
      rw [map_eq_bind]
      rfl
    · rw [hsched, hmsched]
      exact hbusy fun hnil => hne (by rw [hnil]; rfl)
  · have hmask (hs : strict) : n.data.ready &&& ~~~wanted = 0#32 := by
      rcases hok hs (hinv.masked hs io _ hd) with hnone | hkept
      · have hzero : n.data.ready = 0#32 := not_not.1 fun hne => hpending ⟨hne, hnone⟩
        rw [hzero, zero_and]
      · exact hkept
    obtain ⟨l', hl', hinv', hsched⟩ := setWanted_inv hinv hd wanted hmask rfl
    refine ⟨l', ?_, all, _, _, hinv', hsched ▸ hbusy⟩
    rw [← hl']
    simp only [ioModify, hn, hsame, if_neg hpending, bind_eq_bind, bind_some, if_false]
    rw [map_eq_bind]
    rfl

theorem ioFree_looked (hio : io ∈ l.ios) : ∃ l', l.ioFree io = some l' ∧ Looked strict k l' := by
  obtain ⟨all, pend, D, hinv, hbusy⟩ := h
  obtain ⟨n, hn, hd⟩ := hinv.rep.exists_lookup hio
  obtain ⟨m, hremove, hminv, hmsched⟩ := removePending_spec hinv hd
  obtain ⟨m', hdel, hrep, hhandlers, hsched⟩ :=
    delIo_spec hminv.rep (hminv.registered io _ (update_self ..))
  refine ⟨{ m'.setFdHandler n.fd false false io with ios := m'.ios.erase io }, ?_,
    all.erase io, pend.erase io, update D io none, ⟨?_, forall_update nofun fun a e ha he => ?_,
      forall_update nofun fun a e ha he => ?_, ?_, fun hs => forall_update nofun fun a e _ =>
        hinv.masked hs a e⟩, fun hne => ?_⟩
  · by_cases hready : n.ready = 0#32
    · obtain rfl : l = m := by simpa [removePending, hn, hready] using hremove
      simp [ioFree, hn, hready, hdel, setFdHandler]
    · simp [ioFree, hn, hready, hremove, hdel, setFdHandler]
  · constructor
    · exact hrep.isAll.erase_of_notMem hinv.rep.nodupAll.not_mem_erase
    · exact hrep.isPend.erase_of_notMem hinv.rep.nodupPend.not_mem_erase
    · exact hrep.nodupAll
    · exact hrep.nodupPend
    intro a
    by_cases ha : a = io
    · subst ha
      rw [update_self]
      exact congrArg (Option.map data) (AList.lookup_erase a m'.ios)
    · rw [update_of_ne ha, ← update_of_ne ha _ D, ← hrep.data a]
      exact congrArg (Option.map data) (AList.lookup_erase_ne ha)
  · exact (mem_erase_of_ne ha).2 (hinv.registered a e he)
  · exact (mem_erase_of_ne ha).trans (hinv.marked a e he)
  · intro fd f hf
    have hfd : fd ≠ n.fd := by
      rintro rfl
      cases (m'.setFdHandler_self n.fd false false io).symm.trans hf
    have hf : m.handlers fd = some f := by
      rw [← hhandlers, ← setFdHandler_of_ne m' hfd false false io]
      exact hf
    obtain ⟨e, he, hserved⟩ := hminv.handled fd f hf
    by_cases hfio : f.io = io
    · rw [hfio, update_self] at he
      cases he
      exact absurd hserved.fd_eq.symm hfd
    · rw [update_of_ne hfio] at he ⊢
      exact ⟨e, he, hserved⟩
  · change m'.scheduled = true ∨ 0 < k
    rw [hsched, hmsched]
    exact hbusy fun hnil => hne (by rw [hnil]; rfl)

theorem ioNew_looked (hio : io ∉ l.ios) (fd : Nat) :
    ∃ l', l.ioNew io fd = some l' ∧ Looked strict k l' := by
  obtain ⟨all, pend, D, hinv, hbusy⟩ := h
  have hall : io ∉ all := fun hmem => hio (hinv.rep.isAll.mem_heap hmem)
  have hpend : io ∉ pend := fun hmem => hio (hinv.rep.isPend.mem_heap hmem)
  have hnone : ∀ a d, D a = some d → a ≠ io := by
    rintro a d ha rfl
    obtain ⟨n, hn, -⟩ := hinv.rep.lookup ha
    exact hio (mem_of_lookup hn)
  refine ⟨{ l with
    ios := (l.ios.insert io ⟨fd, 0#32, 0#32, none, none⟩).insert io ⟨fd, 0#32, 0#32, none, l.ioList⟩
    ioList := some io }, ?_, io :: all, pend, update D io (some ⟨fd, 0#32, 0#32⟩),
    ⟨?_, ?_, ?_, ?_, fun hs => ?_⟩, hbusy⟩
  · simp [ioNew, addIo, Heap.modify]
  · rw [AList.insert_insert]
    constructor
    · exact hinv.rep.isAll.push hall rfl
    · exact hinv.rep.isPend.insert_of_notMem hpend
    · exact nodup_cons.2 ⟨hall, hinv.rep.nodupAll⟩
    · exact hinv.rep.nodupPend
    · exact hinv.rep.data_insert io _
  · exact forall_update (fun _ _ => mem_cons_self) fun a e _ he =>
    mem_cons_of_mem _ (hinv.registered a e he)
  · refine forall_update ?_ fun a e _ => hinv.marked a e
    rintro _ ⟨⟩
    exact iff_of_false hpend (not_not.2 rfl)
  · intro fd' f hf
    obtain ⟨e, he, hserved⟩ := hinv.handled fd' f hf
    exact ⟨e, by rw [update_of_ne (hnone _ e he), he], hserved⟩
  · refine forall_update ?_ fun a e _ => hinv.masked hs a e
    rintro _ ⟨⟩
    exact zero_and

/-- One turn of the loop of the bottom half: the list is empty, or the io called is registered. -/
theorem handleIo_looked :
    (l.handleIo = some (none, l) ∧ ∀ j, Looked strict j l) ∨
    ∃ io ready l', l.handleIo = some (some (io, ready), l') ∧ io ∈ l.ios ∧
      Looked strict k l' := by
  obtain ⟨all, pend, D, hinv, hbusy⟩ := h
  cases pend with
  | nil =>
    have hnone : l.ioPending = none := hinv.rep.isPend
    refine .inl ⟨by rw [handleIo, hnone], fun j => ⟨all, [], D, hinv, fun hne => absurd rfl hne⟩⟩
  | cons io pend =>
    right
    obtain ⟨hhead, n, hn, hrest⟩ := hinv.rep.isPend
    obtain ⟨hnot, hnodup⟩ := nodup_cons.1 hinv.rep.nodupPend
    refine ⟨io, n.ready, { l with
      ios := l.ios.insert io { n with pendingNext := none, ready := 0#32 }
      ioPending := n.pendingNext }, ?_, mem_of_lookup hn,
      all, pend, _, hinv.write (hinv.rep.data_of_lookup hn)
        ⟨?_, ?_, hinv.rep.nodupAll, hnodup, hinv.rep.data_insert io _⟩ rfl (fun a ha => ?_)
        (iff_of_false hnot (not_not.2 rfl)) fun _ => zero_and,
      fun _ => hbusy (cons_ne_nil io pend)⟩
    · simp only [handleIo, hhead, hn, modify_of_lookup hn, bind_eq_bind, bind_some]
    · exact hinv.rep.isAll.insert_of_get hn rfl
    · exact IsList.insert_of_notMem hrest hnot
    · rw [mem_cons, or_iff_right ha]

end

end QLooper

/-! ## Runs -/

structure RunInv (strict : Prop) (s : LooperState) : Prop where
  sound : s.fault = false
  looked : Looked strict s.draining s.looper

variable {s s' : LooperState}

theorem RunInv.after (h : RunInv strict s) {r : Option QLooper}
    (hr : ∃ l', r = some l' ∧ Looked strict s.draining l') : RunInv strict (s.after r) := by
  obtain ⟨l', rfl, hl'⟩ := hr
  exact ⟨h.sound, hl'⟩

/-- The event that an io no longer wants. -/
def LooperEvent.dropped : LooperEvent → Option (Addr × BitVec 32)
  | .dontWantRead io => some (io, loopIoRead)
  | .dontWantWrite io => some (io, loopIoWrite)
  | _ => none

/-- When an event is no longer wanted, those that are ready are all still wanted, or none is. -/
def Unsplit (s : LooperState) (e : LooperEvent) : Prop :=
  ∀ p ∈ e.dropped, ∀ n ∈ s.looper.ios.lookup p.1,
    n.ready &&& (n.wanted &&& ~~~p.2) = 0#32 ∨ n.ready &&& ~~~(n.wanted &&& ~~~p.2) = 0#32
deriving Decidable

variable {flag : BitVec 32}

theorem RunInv.dontWant (h : RunInv strict s) {e : LooperEvent} (hok : strict → Unsplit s e)
    (he : e.dropped = some (io, flag)) (hs : s.modifyWanted io (· &&& ~~~flag) = some s') :
    RunInv strict s' := by
  obtain ⟨n, hn, rfl⟩ := map_eq_some_iff.1 hs
  exact h.after (ioModify_looked h.looked hn fun hstrict _ => hok hstrict _ he n hn)

theorem RunInv.want (h : RunInv strict s)
    (hs : s.modifyWanted io (· ||| flag) = some s') : RunInv strict s' := by
  obtain ⟨n, hn, rfl⟩ := map_eq_some_iff.1 hs
  refine h.after (ioModify_looked h.looked hn fun _ hmask => .inr ?_)
  rw [BitVec.not_or, ← BitVec.and_assoc, hmask, zero_and]

theorem or_loopIoRead_ne_zero (r : BitVec 32) : r ||| loopIoRead ≠ 0#32 := by
  intro h
  have := congrArg (fun b : BitVec 32 => b.getLsbD 0) h
  simp [loopIoRead] at this

theorem or_loopIoWrite_ne_zero (r : BitVec 32) : r ||| loopIoWrite ≠ 0#32 := by
  intro h
  have := congrArg (fun b : BitVec 32 => b.getLsbD 1) h
  simp [loopIoWrite] at this

theorem RunInv.step {e : LooperEvent} (h : RunInv strict s) (hok : strict → Unsplit s e)
    (hs : looperNext s e = some s') : RunInv strict s' := by
  cases e with
  | new io fd =>
    obtain ⟨hio, ⟨⟩⟩ := ite_none_left_eq_some.1 hs
    exact h.after (ioNew_looked h.looked hio fd)
  | handleRead fd =>
    obtain ⟨f, hf, hs⟩ := bind_eq_some_iff.1 hs
    obtain ⟨hread, ⟨⟩⟩ := ite_none_right_eq_some.1 hs
    exact h.after (setReady_looked h.looked hf or_loopIoRead_ne_zero
      fun _ hserved => hserved.read hread)
  | handleWrite fd =>
    obtain ⟨f, hf, hs⟩ := bind_eq_some_iff.1 hs
    obtain ⟨hwrite, ⟨⟩⟩ := ite_none_right_eq_some.1 hs
    exact h.after (setReady_looked h.looked hf or_loopIoWrite_ne_zero
      fun _ hserved => hserved.write hwrite)
  | wantRead io => exact h.want hs
  | wantWrite io => exact h.want hs
  | dontWantRead io => exact h.dontWant hok rfl hs
  | dontWantWrite io => exact h.dontWant hok rfl hs
  | free io =>
    obtain ⟨hio, ⟨⟩⟩ := ite_none_right_eq_some.1 hs
    exact h.after (ioFree_looked h.looked hio)
  | runBh =>
    obtain ⟨-, ⟨⟩⟩ := ite_none_right_eq_some.1 hs
    obtain ⟨all, pend, D, ⟨⟨h1, h2, h3, h4, h5⟩, hreg, hmark, hhandled, hmasked⟩, -⟩ := h.looked
    exact ⟨h.sound, all, pend, D, ⟨⟨h1, h2, h3, h4, h5⟩, hreg, hmark, hhandled, hmasked⟩,
      fun _ => .inr (Nat.succ_pos _)⟩
  | handleIo =>
    obtain ⟨-, hs⟩ := ite_none_left_eq_some.1 hs
    rcases handleIo_looked h.looked with ⟨hl, hlooked⟩ | ⟨io, _, l', hl, -, hlooked⟩
    · rw [hl] at hs
      cases hs
      exact ⟨h.sound, hlooked _⟩
    · rw [hl] at hs
      cases hs
      exact ⟨h.sound, hlooked⟩

theorem RunInv.init : RunInv strict looperNewCore := ⟨rfl, [], [], fun _ => none,
    ⟨⟨rfl, rfl, nodup_nil, nodup_nil, fun _ => rfl⟩, by rintro _ _ ⟨⟩, by rintro _ _ ⟨⟩,
      by rintro _ _ ⟨⟩, by rintro _ _ _ ⟨⟩⟩,
    fun h => absurd rfl h⟩

theorem runInv_of_reach {ok : LooperState → LooperEvent → Prop}
    (hok : strict → ∀ s e, ok s e → Unsplit s e) (h : looperMachine.Reach ok s) :
    RunInv strict s := by
  refine h.invariant ?_ ?_
  · rintro s rfl
    exact RunInv.init
  · intro s e s' _ hinv hse hs
    simp only [looperMachine, hinv.sound] at hs
    exact hinv.step (fun hstrict => hok hstrict s e hse) hs

/-- In every state of every run no freed io has been used; the pending list is finite, without
repetition, and holds exactly the ios with a ready mask, which are registered; if it is not empty
the bottom half is scheduled or draining it; and the io that a turn of the bottom half calls has not
been freed. -/
theorem pending_iff_ready (h : looperMachine.Reachable s) : s.fault = false ∧
    (∃ pend, IsList pendingLink s.looper.ios s.looper.ioPending pend ∧ pend.Nodup ∧
      ∀ io, io ∈ pend ↔ ∃ n, s.looper.ios.lookup io = some n ∧ n.ready ≠ 0#32) ∧
    (∀ io, OnList pendingLink s.looper.ios s.looper.ioPending io →
      io ∈ s.looper.ios ∧ OnList nextLink s.looper.ios s.looper.ioList io) ∧
    (s.looper.ioPending ≠ none → s.looper.scheduled = true ∨ 0 < s.draining) ∧
    (∃ called l, s.looper.handleIo = some (called, l) ∧ ∀ io ready, called = some (io, ready) →
      io ∈ s.looper.ios ∧ OnList nextLink s.looper.ios s.looper.ioList io) := by
  obtain ⟨hsound, hlooked⟩ := runInv_of_reach False.elim h
  obtain ⟨all, pend, D, hinv, hbusy⟩ := id hlooked
  have hreg : ∀ io, io ∈ s.looper.ios → OnList nextLink s.looper.ios s.looper.ioList io := by
    intro io hio
    obtain ⟨n, -, hd⟩ := hinv.rep.exists_lookup hio
    exact hinv.rep.isAll.onList_iff.2 (hinv.registered io _ hd)
  refine ⟨hsound, ⟨pend, hinv.rep.isPend, hinv.rep.nodupPend, fun io => ?_⟩, fun io hio => ?_,
    fun hne => ?_, ?_⟩
  · constructor
    · intro hio
      obtain ⟨n, hn, hd⟩ := hinv.rep.exists_lookup (hinv.rep.isPend.mem_heap hio)
      exact ⟨n, hn, (hinv.marked io _ hd).1 hio⟩
    · rintro ⟨n, hn, hready⟩
      exact (hinv.marked io _ (hinv.rep.data_of_lookup hn)).2 hready
  · have hmem := hinv.rep.isPend.mem_heap (hinv.rep.isPend.onList_iff.1 hio)
    exact ⟨hmem, hreg io hmem⟩
  · exact hbusy fun hnil => hne (hinv.rep.isPend.eq_none_iff.2 hnil)
  rcases handleIo_looked hlooked with ⟨hl, -⟩ | ⟨io, ready, l', hl, hio, -⟩
  · exact ⟨none, s.looper, hl, nofun⟩
  · refine ⟨some (io, ready), l', hl, fun io' ready' hio' => ?_⟩
    cases hio'
    exact ⟨hio, hreg io hio⟩

/-- Two ios become ready, and the callback of the second frees the first. -/
def freeInCallback : List LooperEvent :=
  [.new 16 3, .new 32 4, .wantRead 16, .wantWrite 32, .handleRead 3, .handleWrite 4, .runBh,
    .handleIo, .free 16, .wantRead 32, .handleRead 4]

theorem pending_iff_ready_freeInCallback :
    ∃ s, looperMachine.run looperNewCore freeInCallback = some s ∧ s.looper.ioPending = some 32 ∧
      s.fault = false ∧
      (∃ pend, IsList pendingLink s.looper.ios s.looper.ioPending pend ∧ pend.Nodup ∧
        ∀ io, io ∈ pend ↔ ∃ n, s.looper.ios.lookup io = some n ∧ n.ready ≠ 0#32) := by
  obtain ⟨s, hs, hreach, hpending⟩ :=
    Machine.Reachable.exists_of_run (M := looperMachine) (.init rfl)
      freeInCallback (P := (·.looper.ioPending = some 32)) (by decide +kernel)
  have h := pending_iff_ready hreach
  exact ⟨s, hs, hpending, h.1, h.2.1⟩

/-! ## What the user callbacks are told -/

/-- The io that a turn of the bottom half calls, and the events that it reports. -/
def QLooper.userCallback (l : QLooper) : Option (Addr × BitVec 32) := l.handleIo.bind Prod.fst

/-- In every run in which no call stops wanting one of two events that are both ready, a callback is
told of some event, and only of events that its io wants. -/
theorem userCallback_wanted (h : looperMachine.Reach Unsplit s) {io : Addr} {events : BitVec 32}
    (hcall : s.looper.userCallback = some (io, events)) :
    events ≠ 0#32 ∧ ∃ n, s.looper.ios.lookup io = some n ∧ events &&& ~~~n.wanted = 0#32 := by
  have hrun : RunInv True s := runInv_of_reach (fun _ _ _ => id) h
  obtain ⟨all, pend, D, hinv, -⟩ := hrun.looked
  obtain ⟨⟨_, l'⟩, hturn, rfl⟩ := bind_eq_some_iff.1 hcall
  unfold handleIo at hturn
  split at hturn
  · cases hturn
  next p hp =>
  obtain ⟨n, hn, hturn⟩ := bind_eq_some_iff.1 hturn
  obtain ⟨ios, -, ⟨⟩⟩ := bind_eq_some_iff.1 hturn
  have hd := hinv.rep.data_of_lookup hn
  have hmem : io ∈ pend := by
    cases pend with
    | nil => cases hp.symm.trans hinv.rep.isPend
    | cons a pend =>
      cases hp.symm.trans hinv.rep.isPend.1
      exact mem_cons_self
  exact ⟨(hinv.marked io _ hd).1 hmem, n, hn, hinv.masked trivial io _ hd⟩

/-- A read and a write are both ready, and the bottom half runs. -/
def bothReady : List LooperEvent :=
  [.new 16 3, .wantRead 16, .wantWrite 16, .handleRead 3, .handleWrite 3, .runBh]

theorem userCallback_wanted_bothReady :
    ∃ s, looperMachine.Reach Unsplit s ∧ s.looper.userCallback = some (16, 3#32) ∧
      ∃ n, s.looper.ios.lookup 16 = some n ∧ 3#32 &&& ~~~n.wanted = 0#32 := by
  have hmeets : looperMachine.Meets Unsplit looperNewCore bothReady := by decide +kernel
  obtain ⟨s, -, hreach, hcall⟩ := Machine.Reach.exists_of_run (.init rfl) hmeets
    (P := (·.looper.userCallback = some (16, 3#32))) (by decide +kernel)
  exact ⟨s, hreach, hcall, (userCallback_wanted hreach hcall).2⟩

/-- The io stops wanting writes when both are ready: its callback is still told of the write. -/
theorem userCallback_unwanted :
    ∃ s, looperMachine.Reachable s ∧ s.looper.userCallback = some (16, 3#32) ∧
      (s.looper.ios.lookup 16).map wanted = some loopIoRead :=
  Machine.Reachable.exists_of_eval (.init rfl) (bothReady ++ [.dontWantWrite 16])
    (by decide +kernel)

end QemuAndroid.Looper
