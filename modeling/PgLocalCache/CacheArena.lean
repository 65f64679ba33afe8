import PgLocalCache.ByteMemory

/-!
# The slab arena of cache_arena.c

A page is unassigned or split into equal blocks of one power-of-two class. The
free list of a page lives in the first four bytes of its unallocated blocks.
Block references are byte offsets, and the bitmap of a page is a predicate on
block numbers. The memory and page pointers are taken to be present.
-/

namespace PgLocalCache.CacheArena

open ByteMemory
open Function (update)

def pageSize : ℕ := 65536
def minBlock : ℕ := 256
def maxBlock : ℕ := 16384
def classCount : ℕ := 7
def noBlock : ℕ := 2^32-1

structure Page where
  freeHead : ℕ
  blockCount : ℕ
  liveCount : ℕ
  classIndex : ℕ
  allocated : ℕ → Bool

structure Arena where
  memory : Memory
  pages : ℕ → Page
  pageCount : ℕ
  firstUnassignedPage : ℕ
  usedBytes : ℕ
  classSlackBytes : ℕ
  assignedBytes : ℕ

def classBytes (classIndex : ℕ) : ℕ :=
  if classIndex < classCount then minBlock <<< classIndex else 0

def arenaReady (a : Arena) : Bool :=
  a.pageCount != 0 && decide (a.pageCount ≤ (2^32-1)/pageSize)

def arenaCountersValid (a : Arena) : Bool :=
  arenaReady a && decide (a.assignedBytes ≤ a.pageCount*pageSize) &&
    decide (a.usedBytes ≤ a.assignedBytes) &&
    decide (a.classSlackBytes ≤ a.assignedBytes-a.usedBytes)

def pageShapeValid (page : Page) : Option ℕ :=
  if page.classIndex = 0 ∨ classCount < page.classIndex then none
  else
    let size := classBytes (page.classIndex-1)
    if size = 0 then none
    else if page.blockCount ≠ pageSize/size ∨ pageSize/size < page.liveCount then none
    else some size

structure BlockInfo where
  pageNo : ℕ
  blockSize : ℕ
  blockNo : ℕ
  deriving DecidableEq, Repr

def blockInfo (a : Arena) (ref : ℕ) (requireAllocated : Bool) : Option BlockInfo :=
  if !arenaReady a then none
  else
    let pageNo := ref/pageSize
    let pageOffset := ref%pageSize
    if a.pageCount ≤ pageNo then none
    else
      let page := a.pages pageNo
      match pageShapeValid page with
      | none => none
      | some size =>
        let blockNo := pageOffset/size
        if pageOffset%size ≠ 0 then none
        else if requireAllocated && page.liveCount == 0 ||
            !requireAllocated && decide (page.blockCount ≤ page.liveCount) then none
        else if page.blockCount ≤ blockNo ∨ pageSize/minBlock ≤ blockNo then none
        else if page.allocated blockNo != requireAllocated then none
        else if a.pageCount*pageSize < ref+size then none
        else some ⟨pageNo,size,blockNo⟩

def freeHeadValid (a : Arena) (pageNo : ℕ) (page : Page) (size : ℕ) : Bool :=
  if page.freeHead = noBlock then page.liveCount == page.blockCount
  else
    match blockInfo a page.freeHead false with
    | none => false
    | some info =>
      info.pageNo == pageNo && info.blockSize == size && decide (page.liveCount < page.blockCount)

def classSizeLoop (request : ℕ) : ℕ → ℕ → ℕ
  | 0, size => size
  | n+1, size => if size < request ∧ size < maxBlock then classSizeLoop request n (size*2) else size

def arenaClassSize (request : ℕ) : ℕ :=
  if request ≤ minBlock then minBlock
  else
    let size := classSizeLoop request classCount minBlock
    if request ≤ size then size else 0

def blankPage : Page where
  freeHead := noBlock
  blockCount := 0
  liveCount := 0
  classIndex := 0
  allocated := fun _ => false

def arenaInit (memory : Memory) (pageCount : ℕ) : Option Arena :=
  if (2^32-1)/pageSize < pageCount then none
  else some {
    memory := memory
    pages := fun _ => blankPage
    pageCount := pageCount
    firstUnassignedPage := 0
    usedBytes := 0
    classSlackBytes := 0
    assignedBytes := 0 }

def linkBlocks (pageNo size count : ℕ) : ℕ → ℕ → Memory → Memory
  | _, 0, memory => memory
  | blockNo, n+1, memory =>
    let ref := pageNo*pageSize+blockNo*size
    let next := if blockNo+1 < count then ref+size else noBlock
    linkBlocks pageNo size count (blockNo+1) n (store32 memory ref next)

def assignPage (a : Arena) (pageNo classIndex : ℕ) : Bool × Arena :=
  let size := classBytes classIndex
  if !arenaCountersValid a ∨ a.pageCount ≤ pageNo ∨ size = 0 ∨
      a.pageCount*pageSize-pageSize < a.assignedBytes then (false,a)
  else if (a.pages pageNo).classIndex ≠ 0 then (false,a)
  else
    let count := pageSize/size
    let page : Page := {
      freeHead := pageNo*pageSize
      blockCount := count
      liveCount := 0
      classIndex := classIndex+1
      allocated := fun _ => false }
    (true,{ a with
      memory := linkBlocks pageNo size count 0 count a.memory
      pages := update a.pages pageNo page
      assignedBytes := a.assignedBytes+pageSize })

inductive Scan where
  | corrupt
  | found (pageNo : ℕ)
  | exhausted
  deriving DecidableEq, Repr

def scanPages (a : Arena) (classIndex : ℕ) : ℕ → ℕ → Scan
  | _, 0 => .exhausted
  | pageNo, n+1 =>
    let page := a.pages pageNo
    if page.classIndex = 0 then
      if page.blockCount ≠ 0 ∨ page.liveCount ≠ 0 ∨ page.freeHead ≠ noBlock then .corrupt
      else scanPages a classIndex (pageNo+1) n
    else
      match pageShapeValid page with
      | none => .corrupt
      | some size =>
        if !freeHeadValid a pageNo page size then .corrupt
        else if page.classIndex = classIndex+1 ∧ page.freeHead ≠ noBlock then .found pageNo
        else scanPages a classIndex (pageNo+1) n

def nextUnassigned (a : Arena) : ℕ → ℕ → ℕ
  | pageNo, 0 => pageNo
  | pageNo, n+1 =>
    if (a.pages pageNo).classIndex = 0 then pageNo else nextUnassigned a (pageNo+1) n

def classIndexLoop (size : ℕ) : ℕ → ℕ → ℕ
  | classIndex, 0 => classIndex
  | classIndex, n+1 =>
    if minBlock <<< classIndex ≠ size then classIndexLoop size (classIndex+1) n else classIndex

def nextLinkValid (a : Arena) (pageNo size next : ℕ) : Bool :=
  next == noBlock ||
    match blockInfo a next false with
    | none => false
    | some info => info.pageNo == pageNo && info.blockSize == size

def takeBlock (a : Arena) (pageNo request size : ℕ) : Option (ℕ × ℕ) × Arena :=
  let page := a.pages pageNo
  let ref := page.freeHead
  if a.assignedBytes < size ∨ a.assignedBytes-size < a.usedBytes+a.classSlackBytes then (none,a)
  else
    match blockInfo a ref false with
    | none => (none,a)
    | some info =>
      if info.pageNo ≠ pageNo ∨ info.blockSize ≠ size then (none,a)
      else
        let next := load32 a.memory ref
        let blockNo := ref%pageSize/size
        if !nextLinkValid a pageNo size next then (none,a)
        else if page.allocated blockNo then (none,a)
        else
          (some (ref,size),{ a with
            pages := update a.pages pageNo { page with
              allocated := update page.allocated blockNo true
              freeHead := next
              liveCount := page.liveCount+1 }
            usedBytes := a.usedBytes+request
            classSlackBytes := a.classSlackBytes+(size-request) })

def arenaAlloc (a : Arena) (request : ℕ) : Option (ℕ × ℕ) × Arena :=
  let size := arenaClassSize request
  let classIndex := classIndexLoop size 0 classCount
  if !arenaCountersValid a ∨ a.pageCount < a.firstUnassignedPage ∨ size = 0 then (none,a)
  else if classCount ≤ classIndex then (none,a)
  else
    match scanPages a classIndex 0 a.pageCount with
    | .corrupt => (none,a)
    | .found pageNo => takeBlock a pageNo request size
    | .exhausted =>
      let pageNo := nextUnassigned a a.firstUnassignedPage (a.pageCount-a.firstUnassignedPage)
      if pageNo = a.pageCount then (none,a)
      else
        match assignPage { a with firstUnassignedPage := pageNo } pageNo classIndex with
        | (false,a) => (none,a)
        | (true,a) => takeBlock a pageNo request size

def giveBlock (a : Arena) (info : BlockInfo) (ref request : ℕ) : Arena :=
  let page := a.pages info.pageNo
  let live := page.liveCount-1
  let page : Page := { page with
    allocated := update page.allocated info.blockNo false
    freeHead := ref
    liveCount := live }
  let a := { a with
    memory := store32 a.memory ref (a.pages info.pageNo).freeHead
    usedBytes := a.usedBytes-request
    classSlackBytes := a.classSlackBytes-(info.blockSize-request) }
  if live = 0 then
    { a with
      pages := update a.pages info.pageNo
        { page with classIndex := 0, blockCount := 0, freeHead := noBlock }
      assignedBytes := a.assignedBytes-pageSize
      firstUnassignedPage :=
        if info.pageNo < a.firstUnassignedPage then info.pageNo else a.firstUnassignedPage }
  else { a with pages := update a.pages info.pageNo page }

def arenaFree (a : Arena) (ref request : ℕ) : Bool × Arena :=
  match blockInfo a ref true with
  | none => (false,a)
  | some info =>
    let page := a.pages info.pageNo
    if page.liveCount = 0 then (false,a)
    else if !arenaCountersValid a ∨ ref%pageSize%info.blockSize ≠ 0 ∨ info.blockSize < request ∨
        a.usedBytes < request ∨ a.classSlackBytes < info.blockSize-request ∨
        (page.liveCount = 1 ∧ a.assignedBytes < pageSize) then (false,a)
    else if !freeHeadValid a info.pageNo page info.blockSize then (false,a)
    else (true,giveBlock a info ref request)

def arenaBlock (a : Arena) (ref : ℕ) : Option ℕ :=
  (blockInfo a ref true).map (fun _ => ref)

def arenaBlockClass (a : Arena) (ref : ℕ) : ℕ :=
  match blockInfo a ref true with
  | none => 0
  | some info => info.blockSize

def arenaResize (a : Arena) (ref oldRequest newRequest : ℕ) : Bool × Arena :=
  let size := arenaBlockClass a ref
  if !arenaCountersValid a ∨ size = 0 ∨ size < oldRequest ∨ size < newRequest ∨
      a.usedBytes < oldRequest ∨ a.classSlackBytes < size-oldRequest then (false,a)
  else
    (true,{ a with
      usedBytes := a.usedBytes-oldRequest+newRequest
      classSlackBytes := a.classSlackBytes-(size-oldRequest)+(size-newRequest) })

end PgLocalCache.CacheArena
