import Mathlib.Data.List.AList

/-!
# Intrusive singly linked lists

C code often threads a list through a field of its nodes: the head is a pointer
held elsewhere, each node holds the pointer to its successor, and a node may be
on several lists at once, through different fields.  This file models such lists
as the code edits them: a `Heap` of nodes, a `Link` (the field the list runs
through), and the pointer-to-pointer idiom

```
for (pnode = &head; *pnode != NULL && !stop(*pnode); pnode = &(*pnode)->link);
```

as `findp`, which returns the `Slot` whose content the loop stopped at.

`IsList L h p xs` says that the chain from `p` through the field `L` is exactly
the finite list `xs`.  It has at most as many nodes as the heap, so `findp` with
fuel for one more always returns (`findp_spec`).
-/

universe u

namespace QemuAndroid.Lib

open List Option AList

/-- An address of an allocated block. -/
abbrev Addr := Nat

/-- A pointer, `none` for `NULL`. -/
abbrev Ptr := Option Addr

/-- The allocated nodes, by address. -/
abbrev Heap (N : Type u) := AList fun _ : Addr => N

/-- A pointer field of a node. -/
structure Link (N : Type u) where
  get : N → Ptr
  set : Ptr → N → N
  get_set : ∀ p n, get (set p n) = p

/-- A place that holds a list pointer: the head, or the link of a node. -/
inductive Slot
  | head
  | link (a : Addr)
deriving DecidableEq, Repr

variable {N : Type u}

variable {h : Heap N} {a : Addr} {n : N}

namespace Heap

/-- Overwrite the node at `a`, which must be allocated. -/
def modify (h : Heap N) (a : Addr) (f : N → N) : Option (Heap N) :=
  (h.lookup a).map fun n => h.insert a (f n)

/-- How many turns a traversal of the heap may take. -/
def fuel (h : Heap N) : Nat := h.keys.length + 1

theorem modify_of_lookup {f : N → N} (hn : h.lookup a = some n) :
    h.modify a f = some (h.insert a (f n)) := by
  simp [modify, hn]

theorem mem_of_lookup (hn : h.lookup a = some n) : a ∈ h := lookup_isSome.mp (by simp [hn])

theorem exists_lookup (ha : a ∈ h) : ∃ n, h.lookup a = some n :=
  isSome_iff_exists.mp (lookup_isSome.mpr ha)

theorem lookup_insert_if (h : Heap N) (a b : Addr) (n : N) :
    (h.insert a n : Heap N).lookup b = if b = a then some n else h.lookup b := by
  split
  · next hb => subst hb; exact lookup_insert h
  · next hb => exact lookup_insert_ne hb

end Heap

/-! ## Chains -/

/-- The chain from `p` through the field `L` is exactly the list `xs`. -/
def IsList (L : Link N) (h : Heap N) : Ptr → List Addr → Prop
  | p, [] => p = none
  | p, a :: xs => p = some a ∧ ∃ n, h.lookup a = some n ∧ IsList L h (L.get n) xs

/-- The chain from `p` is finite and passes through `a`. -/
def OnList (L : Link N) (h : Heap N) (p : Ptr) (a : Addr) : Prop := ∃ xs, IsList L h p xs ∧ a ∈ xs

namespace IsList

variable {L : Link N} {h h' : Heap N} {p q : Ptr} {a : Addr} {xs ys : List Addr}

theorem nil_iff : IsList L h p [] ↔ p = none := Iff.rfl

section

variable (hx : IsList L h p xs)
include hx

theorem unique (hy : IsList L h p ys) : xs = ys := by
  induction xs generalizing p ys with
  | nil =>
    cases ys with
    | nil => rfl
    | cons b ys => rw [nil_iff.mp hx] at hy; cases hy.1
  | cons a xs ih =>
    obtain ⟨rfl, n, hn, hrest⟩ := hx
    cases ys with
    | nil => cases nil_iff.mp hy
    | cons b ys =>
      obtain ⟨hb, m, hm, hrest'⟩ := hy
      obtain rfl : a = b := some.inj hb
      obtain rfl : n = m := some.inj (hn.symm.trans hm)
      rw [ih hrest hrest']

theorem onList_iff : OnList L h p a ↔ a ∈ xs := by
  constructor
  · rintro ⟨ys, hy, ha⟩
    exact hx.unique hy ▸ ha
  · exact fun ha => ⟨xs, hx, ha⟩

theorem eq_none_iff : p = none ↔ xs = [] := by
  cases xs with
  | nil => simp [nil_iff.mp hx]
  | cons a xs => simp [hx.1]

theorem mem_heap (ha : a ∈ xs) : a ∈ h := by
  induction xs generalizing p with
  | nil => cases ha
  | cons b xs ih =>
    obtain ⟨-, n, hn, hrest⟩ := hx
    rcases mem_cons.mp ha with rfl | ha
    · exact Heap.mem_of_lookup hn
    · exact ih hrest ha

/-- A duplicate-free chain is no longer than the heap is large. -/
theorem length_le (hnd : xs.Nodup) : xs.length < h.fuel := by
  have hsub : xs ⊆ h.keys := fun _ hb => mem_keys.mp (hx.mem_heap hb)
  exact Nat.lt_succ_of_le (subperm_of_subset hnd hsub).length_le

/-- A chain only depends on the field `L` of its own members. -/
theorem frame
    (hh : ∀ b ∈ xs, ∀ n, h.lookup b = some n → ∃ n', h'.lookup b = some n' ∧ L.get n' = L.get n) :
    IsList L h' p xs := by
  induction xs generalizing p with
  | nil => exact hx
  | cons b xs ih =>
    obtain ⟨rfl, n, hn, hrest⟩ := hx
    obtain ⟨n', hn', hget⟩ := hh b mem_cons_self n hn
    refine ⟨rfl, n', hn', ?_⟩
    rw [hget]
    exact ih hrest fun c hc => hh c (mem_cons_of_mem _ hc)

/-- Inserting a node off the chain keeps the chain. -/
theorem insert_of_notMem (ha : a ∉ xs) : IsList L (h.insert a n : Heap N) p xs := by
  refine hx.frame fun b hb m hm => ⟨m, ?_, rfl⟩
  have hne : b ≠ a := fun e => ha (e ▸ hb)
  rw [lookup_insert_ne hne]
  exact hm

/-- Rewriting a node of the chain without touching `L` keeps the chain. -/
theorem insert_of_get {n' : N} (hn : h.lookup a = some n) (hget : L.get n' = L.get n) :
    IsList L (h.insert a n' : Heap N) p xs := by
  refine hx.frame fun b _ m hm => ?_
  rw [Heap.lookup_insert_if]
  split
  · next hb =>
    subst hb
    obtain rfl : n = m := some.inj (hn.symm.trans hm)
    exact ⟨n', rfl, hget⟩
  · exact ⟨m, hm, rfl⟩

/-- Freeing a node off the chain keeps the chain. -/
theorem erase_of_notMem (ha : a ∉ xs) : IsList L (h.erase a : Heap N) p xs := by
  refine hx.frame fun b hb m hm => ⟨m, ?_, rfl⟩
  have hne : b ≠ a := fun e => ha (e ▸ hb)
  rw [lookup_erase_ne hne]
  exact hm

/-- Pushing a node at the front: its link is pointed at the old head. -/
theorem push (ha : a ∉ xs) (hget : L.get n = p) :
    IsList L (h.insert a n : Heap N) (some a) (a :: xs) :=
  ⟨rfl, n, lookup_insert h, hget ▸ hx.insert_of_notMem ha⟩

end

end IsList

/-! ## Searching through a pointer to a pointer -/

/-- The search loop: walk from the slot `s`, whose content is `p`, until the
content is `NULL` or a node that `stop` accepts.  Returns the slot with its
content; `none` when a pointer dangles or the fuel is spent. -/
def findp (L : Link N) (h : Heap N) (stop : Addr → N → Bool) :
    Nat → Slot → Ptr → Option (Slot × Ptr)
  | 0, _, _ => none
  | _ + 1, s, none => some (s, none)
  | f + 1, s, some a => (h.lookup a).bind fun n =>
    if stop a n then some (s, some a) else findp L h stop f (.link a) (L.get n)

/-- The slot reached after walking over the nodes `xs` from the slot `s`. -/
def Slot.after (s : Slot) : List Addr → Slot
  | [] => s
  | a :: xs => (Slot.link a).after xs

@[simp] theorem Slot.after_concat (s : Slot) (xs : List Addr) (a : Addr) :
    s.after (xs ++ [a]) = .link a := by
  induction xs generalizing s with
  | nil => rfl
  | cons b xs ih => exact ih (.link b)

/-- The content of the head and the heap after writing `v` into a slot. -/
def Slot.store (L : Link N) (v : Ptr) (head : Ptr) (h : Heap N) : Slot → Option (Ptr × Heap N)
  | .head => some (v, h)
  | .link a => (h.modify a (L.set v)).map fun h' => (head, h')

variable {L : Link N} {p : Ptr}

/-- Where the search stops: the chain splits at the first node that `stop`
accepts, and the slot returned is the one just before it. -/
theorem findp_spec (stop : Addr → N → Bool) {xs : List Addr} (hx : IsList L h p xs) (s : Slot)
    {f : Nat} (hf : xs.length < f) : ∃ pre suf, xs = pre ++ suf ∧
      (∀ b ∈ pre, ∀ n, h.lookup b = some n → stop b n = false) ∧
      (∀ b, suf.head? = some b → ∃ n, h.lookup b = some n ∧ stop b n = true) ∧
      findp L h stop f s p = some (s.after pre, suf.head?) := by
  induction xs generalizing p s f with
  | nil =>
    obtain ⟨f, rfl⟩ := Nat.exists_eq_succ_of_ne_zero (ne_of_gt hf)
    rw [IsList.nil_iff.mp hx]
    exact ⟨[], [], rfl, by simp, by simp, rfl⟩
  | cons a xs ih =>
    obtain ⟨f, rfl⟩ :=
      Nat.exists_eq_succ_of_ne_zero (Nat.ne_of_gt (Nat.lt_of_le_of_lt (Nat.zero_le _) hf))
    obtain ⟨rfl, n, hn, hrest⟩ := hx
    by_cases hs : stop a n = true
    · refine ⟨[], a :: xs, rfl, by simp, ?_, by simp [findp, hn, hs, Slot.after]⟩
      intro b hb
      obtain rfl : a = b := by simpa using hb
      exact ⟨n, hn, hs⟩
    obtain ⟨pre, suf, rfl, hpre, hsuf, hfind⟩ := ih hrest (.link a) (Nat.lt_of_succ_lt_succ hf)
    refine ⟨a :: pre, suf, rfl, ?_, hsuf, ?_⟩
    · intro b hb m hm
      rcases mem_cons.mp hb with rfl | hb
      · obtain rfl : n = m := some.inj (hn.symm.trans hm)
        simpa using hs
      · exact hpre b hb m hm
    · simp [findp, hn, hs, hfind, Slot.after]

/-- Overwriting the slot before `a` by the successor of `a` takes `a`, and only
`a`, off the chain.  Nodes off the chain are not written at all, and no member
of the chain changes outside its field `L`. -/
theorem IsList.unlink {pre suf : List Addr} (hx : IsList L h p (pre ++ a :: suf))
    (hnd : (pre ++ a :: suf).Nodup) (hn : h.lookup a = some n) :
    ∃ p' h', (Slot.head.after pre).store L (L.get n) p h = some (p', h') ∧
      IsList L h' p' (pre ++ suf) ∧ (∀ b, h'.lookup b = h.lookup b ∨
        b ∈ pre ∧ ∃ m q, h.lookup b = some m ∧ h'.lookup b = some (L.set q m)) := by
  have hsuf : IsList L h (L.get n) suf := by
    clear hnd
    induction pre generalizing p with
    | nil =>
      obtain ⟨-, m, hm, hrest⟩ := hx
      obtain rfl : n = m := some.inj (hn.symm.trans hm)
      exact hrest
    | cons b pre ih =>
      obtain ⟨-, m, -, hrest⟩ := hx
      exact ih hrest
  rcases eq_nil_or_concat' pre with rfl | ⟨front, c, rfl⟩
  · exact ⟨L.get n, h, rfl, hsuf, fun b => .inl rfl⟩
  have hc : c ∈ h := hx.mem_heap (by simp)
  obtain ⟨m, hm⟩ := Heap.exists_lookup hc
  refine ⟨p, h.insert c (L.set (L.get n) m), ?_, ?_, ?_⟩
  · rw [Slot.after_concat, Slot.store, Heap.modify_of_lookup hm]
    rfl
  · have hnotin : c ∉ front ∧ c ∉ suf := by
      grind
    clear hnd
    induction front generalizing p with
    | nil =>
      obtain ⟨rfl, -, -, -⟩ := hx
      refine ⟨rfl, L.set (L.get n) m, lookup_insert h, ?_⟩
      rw [L.get_set]
      exact hsuf.insert_of_notMem hnotin.2
    | cons b front ih =>
      obtain ⟨rfl, k, hk, hrest⟩ := hx
      have hbc : b ≠ c := fun e => hnotin.1 (by simp [e])
      refine ⟨rfl, k, by rw [lookup_insert_ne hbc]; exact hk, ?_⟩
      exact ih hrest ⟨fun hmem => hnotin.1 (mem_cons_of_mem _ hmem), hnotin.2⟩
  · intro b
    rw [Heap.lookup_insert_if]
    split
    · next hb =>
      subst hb
      exact .inr ⟨by simp, m, L.get n, hm, rfl⟩
    · exact .inl rfl

/-- The heap has only changed in the field `L` of its nodes. -/
def LinkOnly (L : Link N) (h h' : Heap N) : Prop :=
  ∀ b, h'.lookup b = h.lookup b ∨ ∃ m q, h.lookup b = some m ∧ h'.lookup b = some (L.set q m)

/-- The search for a node of the chain, and its removal. -/
theorem IsList.findp_remove {xs : List Addr} (hx : IsList L h p xs) (hnd : xs.Nodup) (ha : a ∈ xs)
    (hn : h.lookup a = some n) :
    ∃ slot p' h', findp L h (fun b _ => b == a) h.fuel .head p = some (slot, some a) ∧
      slot.store L (L.get n) p h = some (p', h') ∧ IsList L h' p' (xs.erase a) ∧
      LinkOnly L h h' := by
  obtain ⟨pre, suf, rfl, hpre, hsuf, hfind⟩ :=
    findp_spec (fun b _ => b == a) hx .head (hx.length_le hnd)
  have hnotin : a ∉ pre := by
    intro hmem
    obtain ⟨m, hm⟩ := Heap.exists_lookup (hx.mem_heap (mem_append_left _ hmem))
    have := hpre a hmem m hm
    rw [beq_self_eq_true] at this
    cases this
  have hmem : a ∈ suf := (mem_append.1 ha).resolve_left hnotin
  cases suf with
  | nil => cases hmem
  | cons b suf =>
    obtain ⟨m, -, hb⟩ := hsuf b rfl
    obtain rfl : b = a := eq_of_beq hb
    obtain ⟨p', h', hstore, hlist, hframe⟩ := hx.unlink hnd hn
    refine ⟨_, p', h', hfind, hstore, ?_, fun c => ?_⟩
    · rw [erase_append_right _ hnotin, erase_cons_head]
      exact hlist
    · rcases hframe c with heq | ⟨-, hset⟩
      · exact .inl heq
      · exact .inr hset

end QemuAndroid.Lib
