import QemuAndroid.Lib.Machine
import QemuAndroid.Migration.PageCache
import QemuAndroid.Migration.Xbzrle

/-!
# Live migration of RAM

The source side of `migration/ram.c` with XBZRLE enabled, and what the destination
does with the pages it is sent.  Pages are identified by `current_addr`, their address
in the RAM address space.

The guest runs while a page is sent and may write to it between the points at which
`ram_save_page` reads it; these writes are part of the event.  A buffer that is queued
without copying it is read when the page has been handed over.  The file has no
`save_page` hook (`ram_control_save_page` is not supported), and pages are not
compressed by threads.  The order in which pages are looked for is left open: outside
the bulk stage a page is sent if its bit in the migration bitmap is set, in the bulk
stage any page may be next.  A `long` of the host has 8 bytes.
-/

namespace QemuAndroid.Migration

open Lib Function

variable {size : Nat}

/-! ## Messages -/

/-- What follows the header of a page. -/
inductive Message (size : Nat)
  /-- `RAM_SAVE_FLAG_COMPRESS` with the byte 0. -/
  | zero
  /-- `RAM_SAVE_FLAG_PAGE`. -/
  | page (data : Page size)
  /-- `RAM_SAVE_FLAG_XBZRLE`: the first `len` bytes of `data`. -/
  | xbzrle (len : Nat) (data : Buffer)

def zeroTargetPage : Page size := fun _ => 0

def loadXbzrle (xhLen : Nat) (data : Buffer) (host : Page size) : Option (Page size) :=
  if size < xhLen then none
  else
    let (ret, buf) := xbzrleDecodeBuffer data xhLen host.toBuffer size
    if ret = -1 then none else some (.ofBuffer buf)

/-- The part of `ram_load` for a page: its new contents, `none` for an error. -/
def Message.load (host : Page size) : Message size → Option (Page size)
  | .zero => some zeroTargetPage
  | .page data => some data
  | .xbzrle len data => loadXbzrle len data host

/-- A page that was sent, with the contents of the source page that it was made from. -/
structure Sent (size : Nat) where
  addr : Nat
  lastStage : Bool
  content : Page size
  message : Message size

/-- The destination after it has applied a list of messages. -/
def received (dest : Nat → Page size) : List (Sent size) → Option (Nat → Page size)
  | [] => some dest
  | e :: sent => do
      let page ← e.message.load (dest e.addr)
      received (update dest e.addr page) sent

/-! ## The source -/

structure RamState (size : Nat) where
  ram : Nat → Page size
  /-- The dirty log of the guest, until the next bitmap sync. -/
  dirtyMemory : Nat → Bool
  migrationBitmap : Nat → Bool
  cache : PageCache size
  xbzrleCacheSize : Nat
  bitmapSyncCount : Nat
  /-- `ram_list.version`. -/
  version : Nat
  lastVersion : Nat
  ramBulkStage : Bool
  /-- `ram_save_complete` is running. -/
  lastStage : Bool
  /-- Everything sent so far. -/
  sent : List (Sent size)

def isZeroRange (page : Page size) : Bool := decide (∀ k < size, page.toBuffer k = 0)

def xbzrleCacheZeroPage (s : RamState size) (currentAddr : Nat) (alloc : Bool) : PageCache size :=
  if s.ramBulkStage then s.cache
  else (cacheInsert s.cache currentAddr zeroTargetPage s.bitmapSyncCount alloc).1

inductive XbzrleResult (size : Nat)
  /-- 0: the page has not changed. -/
  | unmodified
  /-- 1: the difference was sent. -/
  | delta (len : Nat) (data : Buffer)
  /-- `-1`; `*current_data` may point to the page in the cache now. -/
  | normal (cached : Option (Page size))

/-- What `ram_save_page` sends after `save_xbzrle_page` has copied `data`: `host` is the page in
guest memory when it is sent from there. -/
def XbzrleResult.sent (data host : Page size) :
    XbzrleResult size → Option (Page size × Message size)
  | unmodified => none
  | delta len buf => some (data, .xbzrle len buf)
  | normal cached => some (cached.getD host, .page (cached.getD host))

/-- `save_xbzrle_page`.  `data` is what is copied when the page is first read, `data'` what is
copied to the cache when the encoding does not fit. -/
def saveXbzrlePage (cache : PageCache size) (currentAddr bitmapSyncCount : Nat)
    (lastStage alloc : Bool) (data data' : Page size) :
    Option (PageCache size × XbzrleResult size) :=
  let (cache, hit) := cacheIsCached cache currentAddr bitmapSyncCount
  if hit then do
    let prevCachedPage ← getCachedData cache currentAddr
    let (encodedLen, encodedBuf) ←
      xbzrleEncodeBuffer 8 prevCachedPage.toBuffer data.toBuffer size (fun _ => 0) size
    if encodedLen = 0 then
      return (cache, .unmodified)
    else if encodedLen = -1 then
      if lastStage then return (cache, .normal none)
      else return (setCachedData cache currentAddr data', .normal (some data'))
    else
      let cache := if lastStage then cache else setCachedData cache currentAddr data
      return (cache, .delta (encodedLen.toNat % 2 ^ 16) encodedBuf)
  else if lastStage then some (cache, .normal none)
  else
    let (cache, inserted) := cacheInsert cache currentAddr data bitmapSyncCount alloc
    if inserted then some (cache, .normal (getCachedData cache currentAddr))
    else some (cache, .normal none)

/-- `ram_save_page`.  The page holds `data₀` when it is checked for zeros, `data₁` and `data₂` when
`save_xbzrle_page` copies it, and `data₃` when it is sent as it is in guest memory. -/
def ramSavePage (s : RamState size) (currentAddr : Nat) (alloc : Bool)
    (data₀ data₁ data₂ data₃ : Page size) :
    Option (PageCache size × Option (Page size × Message size)) :=
  if isZeroRange data₀ then
    some (xbzrleCacheZeroPage s currentAddr alloc, some (data₀, .zero))
  else if s.ramBulkStage then some (s.cache, some (data₃, .page data₃))
  else do
    let (cache, result) ←
      saveXbzrlePage s.cache currentAddr s.bitmapSyncCount s.lastStage alloc data₁ data₂
    return (cache, result.sent data₁ data₃)

def resetRamGlobals (s : RamState size) : RamState size :=
  { s with lastVersion := s.version, ramBulkStage := true }

def migrationBitmapSync (s : RamState size) : RamState size :=
  { s with
    bitmapSyncCount := (s.bitmapSyncCount + 1) % 2 ^ 64
    migrationBitmap := fun addr => s.migrationBitmap addr || s.dirtyMemory addr
    dirtyMemory := fun _ => false }

/-- `xbzrle_cache_resize`, and the new cache size that `qmp_migrate_set_cache_size` records. -/
def xbzrleCacheResize (s : RamState size) (newSize : Nat) (alloc : Bool) : RamState size :=
  if newSize < size then s
  else if pow2floor newSize = s.xbzrleCacheSize then { s with xbzrleCacheSize := pow2floor newSize }
  else
    match cacheInit size (newSize / size) alloc with
    | none => s
    | some cache => { s with cache := cache, xbzrleCacheSize := pow2floor newSize }

/-! ## Runs -/

/-- What can happen during a migration. -/
inductive RamEvent (size : Nat)
  | write (addr : Nat) (page : Page size)
  | sync
  /-- A page is sent; `w₁`, `w₂` and `w₃` are writes of the guest in between. -/
  | send (addr : Nat) (alloc : Bool) (w₁ w₂ w₃ : Option (Page size))
  /-- `ram_find_and_save_block` has come to the end of the last block. -/
  | roundEnd
  /-- A RAM block is added or removed. -/
  | ramListChange
  /-- `ram_save_iterate` starts. -/
  | iterate
  /-- `qmp_migrate_set_cache_size`. -/
  | resize (newSize : Nat) (alloc : Bool)
  /-- `ram_save_complete` starts; the guest is stopped. -/
  | complete

def sendPage (s : RamState size) (addr : Nat) (alloc : Bool) (w₁ w₂ w₃ : Option (Page size)) :
    Option (RamState size) := do
  let data₀ := s.ram addr
  let data₁ := w₁.getD data₀
  let data₂ := w₂.getD data₁
  let data₃ := w₃.getD data₂
  let (cache, result) ← ramSavePage s addr alloc data₀ data₁ data₂ data₃
  let s := { s with
    cache := cache
    migrationBitmap := update s.migrationBitmap addr false
    ram := update s.ram addr data₃
    dirtyMemory := update s.dirtyMemory addr
      (s.dirtyMemory addr || w₁.isSome || w₂.isSome || w₃.isSome) }
  match result with
  | none => return s
  | some (content, message) =>
    return { s with sent := s.sent ++ [⟨addr, s.lastStage, content, message⟩] }

def ramStep (s : RamState size) : RamEvent size → Option (RamState size)
  | .write addr page =>
    if s.lastStage then none
    else some { s with
      ram := update s.ram addr page
      dirtyMemory := update s.dirtyMemory addr true }
  | .sync => if s.lastStage then none else some (migrationBitmapSync s)
  | .send addr alloc w₁ w₂ w₃ =>
    if addr % size = 0 ∧ addr + size ≤ 2 ^ 64 ∧ (s.ramBulkStage ∨ s.migrationBitmap addr) ∧
        (s.lastStage → w₁ = none ∧ w₂ = none ∧ w₃ = none) then
      sendPage s addr alloc w₁ w₂ w₃
    else none
  | .roundEnd => some { s with ramBulkStage := false }
  | .ramListChange => some { s with version := (s.version + 1) % 2 ^ 32 }
  | .iterate =>
    if s.lastStage then none
    else if s.version ≠ s.lastVersion then some (resetRamGlobals s)
    else some s
  | .resize newSize alloc => some (xbzrleCacheResize s newSize alloc)
  | .complete => if s.lastStage then none else some { migrationBitmapSync s with lastStage := true }

def ramSaveSetup (ram : Nat → Page size) (version xbzrleCacheSize : Nat) (alloc : Bool) :
    Option (RamState size) := do
  let cache ← cacheInit size (xbzrleCacheSize / size) alloc
  return migrationBitmapSync (resetRamGlobals
    { ram := ram, dirtyMemory := fun _ => false, migrationBitmap := fun _ => true, cache := cache,
      xbzrleCacheSize := xbzrleCacheSize, bitmapSyncCount := 0, version :=
      version, lastVersion := 0, ramBulkStage := true, lastStage := false, sent := [] })

/-- Live migration of RAM with pages of `size` bytes. -/
def ramMachine (size : Nat) : Machine (RamState size) (RamEvent size) where
  init s := ∃ ram version cacheSize, ramSaveSetup ram version cacheSize true = some s
  step := ramStep

end QemuAndroid.Migration
