import QemuAndroid.Lib.Buffer
import Mathlib.Data.Nat.Log

/-!
# The page cache

`page_cache.c`: a direct-mapped cache of guest pages.  The slot of an address is given
by its page number; a page stays in its slot until another page with the same slot is
inserted, which is refused while the page is fresh.

Pages have `size` bytes.  Allocations may fail: `alloc` says whether the one that
an operation makes succeeds.
-/

namespace QemuAndroid.Migration

open Lib Function

/-! ## Pages -/

abbrev Page (size : Nat) := Fin size → UInt8

variable {size : Nat}

def Page.toBuffer (page : Page size) : Buffer := fun k => if h : k < size then page ⟨k, h⟩ else 0

def Page.ofBuffer (buf : Buffer) : Page size := fun k => buf k

theorem Page.toBuffer_of_lt (page : Page size) {k : Nat} (h : k < size) :
    page.toBuffer k = page ⟨k, h⟩ := dif_pos h

theorem Page.ofBuffer_eq {buf : Buffer} {page : Page size} (h : AgreeOn buf page.toBuffer 0 size) :
    Page.ofBuffer buf = page := by
  funext k
  rw [ofBuffer, h k (Nat.zero_le _) k.isLt, toBuffer_of_lt]

theorem Page.eq_of_agreeOn {page page' : Page size}
    (h : AgreeOn page.toBuffer page'.toBuffer 0 size) : page = page' := by
  funext k
  have hk := h k (Nat.zero_le _) k.isLt
  rwa [toBuffer_of_lt _ k.isLt, toBuffer_of_lt _ k.isLt] at hk

/-! ## The cache -/

def cachedPageLifetime : Nat := 2

/-- The `it_addr` of an empty slot. -/
def noAddr : Nat := 2 ^ 64 - 1

structure CacheItem (size : Nat) where
  itAddr : Nat
  itAge : Nat
  itData : Option (Page size)

structure PageCache (size : Nat) where
  pageCache : Nat → CacheItem size
  maxNumItems : Nat
  numItems : Nat

def pow2floor (n : Nat) : Nat := 2 ^ Nat.log 2 n

def cacheInit (size numPages : Nat) (alloc : Bool) : Option (PageCache size) :=
  if numPages = 0 then none
  else if alloc then some ⟨fun _ => ⟨noAddr, 0, none⟩, pow2floor numPages, 0⟩
  else none

variable (cache : PageCache size) (addr : Nat)

def cacheGetCachePos : Nat := addr / size &&& (cache.maxNumItems - 1)

def cacheGetByAddr : CacheItem size := cache.pageCache (cacheGetCachePos cache addr)

/-- `get_cached_data`, `none` for a null pointer. -/
def getCachedData : Option (Page size) := (cacheGetByAddr cache addr).itData

def PageCache.setItem (it : CacheItem size) : PageCache size :=
  { cache with pageCache := update cache.pageCache (cacheGetCachePos cache addr) it }

def cacheIsCached (addr currentAge : Nat) : PageCache size × Bool :=
  let it := cacheGetByAddr cache addr
  if it.itAddr = addr then (cache.setItem addr { it with itAge := currentAge }, true)
  else (cache, false)

/-- `cache_insert`; the result is `false` for `-1`. -/
def cacheInsert (pdata : Page size) (currentAge : Nat) (alloc : Bool) : PageCache size × Bool :=
  let it := cacheGetByAddr cache addr
  if it.itData.isSome ∧ it.itAddr ≠ addr ∧
    currentAge < (it.itAge + cachedPageLifetime) % 2 ^ 64 then
    (cache, false)
  else if it.itData.isNone then
    if alloc then
      ({ cache.setItem addr ⟨addr, currentAge, some pdata⟩ with numItems := cache.numItems + 1 },
        true)
    else (cache, false)
  else (cache.setItem addr ⟨addr, currentAge, some pdata⟩, true)

/-- The page that a pointer from `get_cached_data` points to is overwritten. -/
def setCachedData (pdata : Page size) : PageCache size :=
  cache.setItem addr { cacheGetByAddr cache addr with itData := some pdata }

/-! ## The pages that it holds -/

def PageCache.Holds (data : Page size) : Prop :=
  (cacheGetByAddr cache addr).itAddr = addr ∧ getCachedData cache addr = some data

/-- An item is in the slot of its address, and has data. -/
def PageCache.Wf : Prop := ∀ pos, (cache.pageCache pos).itAddr ≠ noAddr →
    cacheGetCachePos cache (cache.pageCache pos).itAddr = pos ∧ (cache.pageCache pos).itData ≠ none

section Cache

variable {cache cache' : PageCache size} {addr : Nat}

@[simp] theorem cacheGetCachePos_setItem (cache : PageCache size) (addr a : Nat)
    (it : CacheItem size) : cacheGetCachePos (cache.setItem addr it) a = cacheGetCachePos cache a :=
  rfl

variable {a age : Nat} {pdata data data' old : Page size}

theorem cacheGetByAddr_setItem_of_ne (it : CacheItem size)
    (h : cacheGetCachePos cache a ≠ cacheGetCachePos cache addr) :
    cacheGetByAddr (cache.setItem addr it) a = cacheGetByAddr cache a := update_of_ne h ..

theorem PageCache.Wf.setItem (hwf : cache.Wf) {it : CacheItem size} (haddr : it.itAddr = addr)
    (hdata : it.itData ≠ none) : (cache.setItem addr it).Wf := by
  intro pos hpos
  rcases eq_or_ne pos (cacheGetCachePos cache addr) with rfl | hne
  · simp only [PageCache.setItem, update_self] at hpos ⊢
    exact ⟨by rw [haddr]; rfl, hdata⟩
  · simp only [PageCache.setItem, update_of_ne hne] at hpos ⊢
    exact hwf pos hpos

/-- Overwriting a slot: its old page is no longer held. -/
theorem holds_setItem_iff :
    (cache.setItem addr ⟨addr, age, some pdata⟩).Holds a data ↔ a = addr ∧ data = pdata ∨
      cacheGetCachePos cache a ≠ cacheGetCachePos cache addr ∧ cache.Holds a data := by
  unfold PageCache.Holds getCachedData
  rcases eq_or_ne (cacheGetCachePos cache a) (cacheGetCachePos cache addr) with hpos | hpos
  · have hitem : cacheGetByAddr (cache.setItem addr ⟨addr, age, some pdata⟩) a =
        ⟨addr, age, some pdata⟩ := by
      rw [cacheGetByAddr, cacheGetCachePos_setItem, hpos]
      exact update_self ..
    simp [hitem, hpos, eq_comm]
  · have hne : a ≠ addr := by
      rintro rfl
      exact hpos rfl
    simp [cacheGetByAddr_setItem_of_ne _ hpos, hpos, hne]

theorem PageCache.Holds.item (h : cache.Holds addr data) :
    cacheGetByAddr cache addr = ⟨addr, (cacheGetByAddr cache addr).itAge, some data⟩ := by
  obtain ⟨h₁, h₂⟩ := h
  unfold getCachedData at h₂
  generalize cacheGetByAddr cache addr = it at *
  cases it
  simp_all

theorem PageCache.Wf.holds_of_itAddr (hwf : cache.Wf) (haddr : addr ≠ noAddr)
    (h : (cacheGetByAddr cache addr).itAddr = addr) : ∃ data, cache.Holds addr data := by
  have hslot : (cache.pageCache (cacheGetCachePos cache addr)).itAddr = addr := h
  obtain ⟨data, hdata⟩ := Option.ne_none_iff_exists'.1 (hwf _ (by rwa [hslot])).2
  exact ⟨data, h, hdata⟩

/-- A page that is held is not held under another content. -/
theorem PageCache.Holds.unique (h : cache.Holds addr data)
    (h' : cache.Holds addr data') : data = data' :=
  Option.some.inj (h.2.symm.trans h'.2)

/-- Two pages that are held are in different slots. -/
theorem PageCache.Holds.pos_ne (h : cache.Holds addr data)
    (h' : cache.Holds a data') (hne : a ≠ addr) :
    cacheGetCachePos cache a ≠ cacheGetCachePos cache addr := by
  intro hpos
  have h₁ := h.1
  have h₂ := h'.1
  unfold cacheGetByAddr at h₁ h₂
  rw [hpos] at h₂
  exact hne (h₂.symm.trans h₁)

/-- Overwriting the slot of a page that is held. -/
theorem PageCache.Holds.setItem_iff (h : cache.Holds addr old) :
    (cache.setItem addr ⟨addr, age, some pdata⟩).Holds a data ↔
      a = addr ∧ data = pdata ∨ a ≠ addr ∧ cache.Holds a data := by
  rw [holds_setItem_iff]
  refine or_congr_right (and_congr_left_iff.2 fun h' => ⟨?_, h.pos_ne h'⟩)
  rintro hpos rfl
  exact hpos rfl

/-- `cache_is_cached` finds the pages that are held, and changes ages only. -/
theorem cacheIsCached_spec (hwf : cache.Wf) (haddr : addr ≠ noAddr)
    {hit : Bool} (h : cacheIsCached cache addr age = (cache', hit)) :
    cache'.Wf ∧ (∀ a data, cache'.Holds a data ↔ cache.Holds a data) ∧
      (hit = true ↔ ∃ data, cache.Holds addr data) := by
  unfold cacheIsCached at h
  simp only at h
  split at h
  · next heq =>
    obtain ⟨rfl, rfl⟩ := Prod.mk.inj h
    obtain ⟨data, hdata⟩ := hwf.holds_of_itAddr haddr heq
    rw [hdata.item]
    refine ⟨hwf.setItem rfl (by simp), fun a data' => ?_, iff_of_true rfl ⟨data, hdata⟩⟩
    rw [hdata.setItem_iff]
    constructor
    · rintro (⟨rfl, rfl⟩ | ⟨-, hd⟩)
      · exact hdata
      · exact hd
    intro hd
    rcases eq_or_ne a addr with rfl | hne
    · exact .inl ⟨rfl, hd.unique hdata⟩
    · exact .inr ⟨hne, hd⟩
  · next hne =>
    obtain ⟨rfl, rfl⟩ := Prod.mk.inj h
    refine ⟨hwf, fun _ _ => Iff.rfl, iff_of_false (by simp) ?_⟩
    rintro ⟨data, hdata⟩
    exact hne hdata.1

/-- `cache_insert`: a page that is already held is updated in any case. -/
theorem cacheInsert_spec (hwf : cache.Wf) (haddr : addr ≠ noAddr) {alloc : Bool} {ok : Bool}
    (h : cacheInsert cache addr pdata age alloc = (cache', ok)) :
    cache'.Wf ∧ (ok = true → cache'.Holds addr pdata) ∧ (ok = false → cache' = cache) ∧
      ∀ a data, cache'.Holds a data → a = addr ∧ data = pdata ∨ a ≠ addr ∧ cache.Holds a data := by
  -- the slot is overwritten, whether or not a page had to be allocated
  have hset (n : Nat) : ({ cache.setItem addr ⟨addr, age, some pdata⟩ with numItems := n }).Wf ∧
      ({ cache.setItem addr ⟨addr, age, some pdata⟩ with numItems := n }).Holds addr pdata ∧
      ∀ a data, ({ cache.setItem addr ⟨addr, age, some pdata⟩ with numItems := n }).Holds a data →
        a = addr ∧ data = pdata ∨ a ≠ addr ∧ cache.Holds a data := by
    refine ⟨hwf.setItem rfl (by simp), holds_setItem_iff.2 (.inl ⟨rfl, rfl⟩), fun a data hd => ?_⟩
    refine (holds_setItem_iff.1 hd).imp_right (And.imp_left ?_)
    rintro hpos rfl
    exact hpos rfl
  -- a page that is held is neither refused nor allocated
  have hkeep (hnot : ∀ data, ¬ cache.Holds addr data) :
      cache.Wf ∧ (false = true → cache.Holds addr pdata) ∧ (false = false → cache = cache) ∧
        ∀ a data, cache.Holds a data → a = addr ∧ data = pdata ∨ a ≠ addr ∧ cache.Holds a data := by
    refine ⟨hwf, fun h => absurd h (by decide), fun _ => rfl, fun a data hd => .inr ⟨?_, hd⟩⟩
    rintro rfl
    exact hnot data hd
  unfold cacheInsert at h
  simp only at h
  split at h
  · next hfresh =>
    obtain ⟨rfl, rfl⟩ := Prod.mk.inj h
    exact hkeep fun data hd => hfresh.2.1 hd.1
  split at h
  · next hnone =>
    split at h
    · obtain ⟨rfl, rfl⟩ := Prod.mk.inj h
      obtain ⟨h₁, h₂, h₃⟩ := hset (cache.numItems + 1)
      exact ⟨h₁, fun _ => h₂, fun h => absurd h (by decide), h₃⟩
    obtain ⟨rfl, rfl⟩ := Prod.mk.inj h
    refine hkeep fun data hd => ?_
    have hdata := hd.2
    unfold getCachedData at hdata
    simp [hdata] at hnone
  · obtain ⟨rfl, rfl⟩ := Prod.mk.inj h
    obtain ⟨h₁, h₂, h₃⟩ := hset cache.numItems
    exact ⟨h₁, fun _ => h₂, fun h => absurd h (by decide), h₃⟩

theorem PageCache.Holds.setCachedData_spec (hold : cache.Holds addr old)
    (hwf : cache.Wf) (pdata : Page size) :
    (setCachedData cache addr pdata).Wf ∧ ∀ a data, (setCachedData cache addr pdata).Holds a data →
      a = addr ∧ data = pdata ∨ a ≠ addr ∧ cache.Holds a data := by
  unfold setCachedData
  rw [hold.item]
  exact ⟨hwf.setItem rfl (by simp), fun a data hd => hold.setItem_iff.1 hd⟩

theorem cacheInit_spec {numPages : Nat} {alloc : Bool}
    (h : cacheInit size numPages alloc = some cache) :
    cache.Wf ∧ ∀ a data, ¬ cache.Holds a data := by
  unfold cacheInit at h
  split at h
  · exact absurd h (by simp)
  split at h
  · obtain rfl := Option.some.inj h
    refine ⟨fun pos hpos => absurd rfl hpos, ?_⟩
    rintro a data ⟨-, hdata⟩
    exact absurd hdata (by simp [getCachedData, cacheGetByAddr])
  · exact absurd h (by simp)

end Cache

end QemuAndroid.Migration
