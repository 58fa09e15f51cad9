import PbsCow.Kalloc

namespace PbsCow
set_option autoImplicit true

/-- The levels of `walk`, from `level` down; the result is the address of the leaf PTE, or 0. -/
def walkLoop (alloc : Bool) : Nat → Nat → Nat → Kern Nat
  | 0, pagetable, va => return pagetable + 8 * PX 0 va
  | level + 1, pagetable, va => do
    let pte := pagetable + 8 * PX (level + 1) va
    let e ← loadWord pte
    if flag e PTE_V then
      walkLoop alloc level (PTE2PA e) va
    else if !alloc then
      return 0
    else
      let q ← kalloc
      if q = 0 then return 0
      memset q 0
      storeWord pte (PA2PTE q ||| PTE_V)
      walkLoop alloc level q va

def walk (pagetable va : Nat) (alloc : Bool) : Kern Nat := do
  if MAXVA ≤ va then throw .walk
  walkLoop alloc 2 pagetable va

def walkaddr (pagetable va : Nat) : Kern Nat := do
  if MAXVA ≤ va then return 0
  let pte ← walk pagetable va false
  if pte = 0 then return 0
  let e ← loadWord pte
  if !flag e PTE_V then return 0
  if !flag e PTE_U then return 0
  return PTE2PA e

/-- The loop of `mappages`; `n` pages are left after the one at `a`. -/
def mappagesLoop (pagetable : Nat) (perm : Word) : Nat → Nat → Nat → Kern Int
  | n, a, pa => do
    let pte ← walk pagetable a true
    if pte = 0 then return -1
    if flag (← loadWord pte) PTE_V then throw .mappagesRemap
    storeWord pte (PA2PTE pa ||| perm ||| PTE_V)
    match n with
    | 0 => return 0
    | n + 1 => mappagesLoop pagetable perm n (a + PGSIZE) (pa + PGSIZE)

def mappages (pagetable va size pa : Nat) (perm : Word) : Kern Int := do
  if size = 0 then throw .mappagesSize
  let a := PGROUNDDOWN va
  let last := PGROUNDDOWN (va + size - 1)
  mappagesLoop pagetable perm ((last - a) / PGSIZE) a pa

def kvmmap (kpgtbl va pa sz : Nat) (perm : Word) : Kern Unit := do
  if (← mappages kpgtbl va sz pa perm) ≠ 0 then throw .kvmmap

def uvmunmapLoop (L : Layout) (pagetable : Nat) (doFree : Bool) : Nat → Nat → Kern Unit
  | 0, _ => return ()
  | n + 1, a => do
    let pte ← walk pagetable a false
    if pte = 0 then throw .uvmunmapWalk
    let e ← loadWord pte
    if !flag e PTE_V then throw .uvmunmapNotMapped
    if PTE_FLAGS e = PTE_V then throw .uvmunmapNotALeaf
    if doFree then kfree L (PTE2PA e)
    storeWord pte 0
    uvmunmapLoop L pagetable doFree n (a + PGSIZE)

def uvmunmap (L : Layout) (pagetable va npages : Nat) (doFree : Bool) : Kern Unit := do
  if va % PGSIZE ≠ 0 then throw .uvmunmapNotAligned
  uvmunmapLoop L pagetable doFree npages va

def uvmcreate : Kern Nat := do
  let pagetable ← kalloc
  if pagetable = 0 then return 0
  memset pagetable 0
  return pagetable

/-- `memmove` of kernel bytes to physical memory, within one page. -/
def memmoveIn (pa : Nat) (src : List Byte) : Kern Unit :=
  modify fun s => s.setPage (pa / PGSIZE) ((s.ram (pa / PGSIZE)).setBytes (pa % PGSIZE) src)

/-- `kalloc` and `mappages` are not checked here: a null page faults in the kernel. -/
def uvmfirst (pagetable : Nat) (src : List Byte) : Kern Unit := do
  if PGSIZE ≤ src.length then throw .uvmfirstMoreThanAPage
  let mem ← kalloc
  if mem = 0 then throw .nullPointer
  memset mem 0
  let _ ← mappages pagetable 0 PGSIZE mem (PTE_W ||| PTE_R ||| PTE_X ||| PTE_U)
  memmoveIn mem src

def uvmdealloc (L : Layout) (pagetable oldsz newsz : Nat) : Kern Nat := do
  if oldsz ≤ newsz then return oldsz
  if PGROUNDUP newsz < PGROUNDUP oldsz then
    let npages := (PGROUNDUP oldsz - PGROUNDUP newsz) / PGSIZE
    uvmunmap L pagetable (PGROUNDUP newsz) npages true
  return newsz

/-- The loop of `uvmalloc`: `n` pages from `a` on, while `a < newsz`. -/
def uvmallocLoop (L : Layout) (pagetable oldsz newsz : Nat) (xperm : Word) : Nat → Nat → Kern Nat
  | 0, _ => return newsz
  | n + 1, a => do
    let mem ← kalloc
    if mem = 0 then
      let _ ← uvmdealloc L pagetable a oldsz
      return 0
    memset mem 0
    if (← mappages pagetable a PGSIZE mem (PTE_R ||| PTE_U ||| xperm)) ≠ 0 then
      kfree L mem
      let _ ← uvmdealloc L pagetable a oldsz
      return 0
    uvmallocLoop L pagetable oldsz newsz xperm n (a + PGSIZE)

/-- The number of iterations of `for(a = start; a < stop; a += PGSIZE)`. -/
def pagesBetween (start stop : Nat) : Nat := (stop - start + (PGSIZE - 1)) / PGSIZE

def uvmalloc (L : Layout) (pagetable oldsz newsz : Nat) (xperm : Word) : Kern Nat := do
  if newsz < oldsz then return oldsz
  let oldsz := PGROUNDUP oldsz
  uvmallocLoop L pagetable oldsz newsz xperm (pagesBetween oldsz newsz) oldsz

def freewalkLoop (free : Nat → Kern Unit) (pagetable : Nat) : Nat → Nat → Kern Unit
  | 0, _ => return ()
  | n + 1, i => do
    let pte ← loadWord (pagetable + 8 * i)
    if flag pte PTE_V && !flag pte (PTE_R ||| PTE_W ||| PTE_X) then
      -- this PTE points to a lower-level page table
      free (PTE2PA pte)
      storeWord (pagetable + 8 * i) 0
    else if flag pte PTE_V then
      throw .freewalkLeaf
    freewalkLoop free pagetable n (i + 1)

/-- The first argument bounds the recursion; a page table has three levels. -/
def freewalk (L : Layout) : Nat → Nat → Kern Unit
  | 0, _ => throw .outOfFuel
  | levels + 1, pagetable => do
    freewalkLoop (freewalk L levels) pagetable 512 0
    kfree L pagetable

def uvmfree (L : Layout) (pagetable sz : Nat) : Kern Unit := do
  if sz > 0 then uvmunmap L pagetable 0 (PGROUNDUP sz / PGSIZE) true
  freewalk L 3 pagetable

/-- The loop of `uvmcopy`: `n` pages from `i` on, while `i < sz`. -/
def uvmcopyLoop (L : Layout) (old new : Nat) : Nat → Nat → Kern Int
  | 0, _ => return 0
  | n + 1, i => do
    let pte ← walk old i false
    if pte = 0 then throw .uvmcopyPteShouldExist
    let e ← loadWord pte
    if !flag e PTE_V then throw .uvmcopyPageNotPresent
    let pa := PTE2PA e
    let mut flags := PTE_FLAGS e
    if flag flags PTE_W then
      flags := (flags &&& ~~~PTE_W) ||| PTE_COW
      storeWord pte (PA2PTE pa ||| flags)
    if (← mappages new i PGSIZE pa flags) ≠ 0 then
      uvmunmap L new 0 (i / PGSIZE) true
      return -1
    increasePgreference pa
    uvmcopyLoop L old new n (i + PGSIZE)

def uvmcopy (L : Layout) (old new sz : Nat) : Kern Int :=
  uvmcopyLoop L old new (pagesBetween 0 sz) 0

def uvmclear (pagetable va : Nat) : Kern Unit := do
  let pte ← walk pagetable va false
  if pte = 0 then throw .uvmclear
  storeWord pte ((← loadWord pte) &&& ~~~PTE_U)

def cowalloc (L : Layout) (pagetable va : Nat) : Kern Int := do
  if va % PGSIZE ≠ 0 then return -1
  if MAXVA ≤ va then return -1
  let pte ← walk pagetable va false
  if pte = 0 then return -1
  let e ← loadWord pte
  let pa := PTE2PA e
  if pa = 0 then return -1
  if flag e PTE_COW then
    let flags := (PTE_FLAGS e &&& ~~~PTE_COW) ||| PTE_W
    let ka ← kalloc
    if ka = 0 then return -1
    memmovePage ka pa
    uvmunmap L pagetable (PGROUNDUP va) 1 true
    let _ ← mappages pagetable va PGSIZE ka flags
  return 0

/-- The loop of `copyout`; every turn copies at least one byte, so `src.length` turns suffice. -/
def copyoutLoop (L : Layout) (pagetable : Nat) : Nat → Nat → List Byte → Kern Int
  | 0, _, _ => return 0
  | fuel + 1, dstva, src => do
    if src.length = 0 then return 0
    let va0 := PGROUNDDOWN dstva
    if (← cowalloc L pagetable va0) < 0 then return -1
    let pa0 ← walkaddr pagetable va0
    if pa0 = 0 then return -1
    let n := min (PGSIZE - (dstva - va0)) src.length
    memmoveIn (pa0 + (dstva - va0)) (src.take n)
    copyoutLoop L pagetable fuel (va0 + PGSIZE) (src.drop n)

def copyout (L : Layout) (pagetable dstva : Nat) (src : List Byte) : Kern Int :=
  copyoutLoop L pagetable src.length dstva src

/-- The bytes of one physical page from offset `o` on. -/
def Page.bytes (p : Page) (o n : Nat) : List Byte := (List.range n).map fun k => p.byte (o + k)

/-- The loop of `copyin`; the list holds the bytes stored at `dst` so far. -/
def copyinLoop (pagetable : Nat) : Nat → Nat → Nat → List Byte → Kern (Int × List Byte)
  | 0, _, _, dst => return (0, dst)
  | fuel + 1, srcva, len, dst => do
    if len = 0 then return (0, dst)
    let va0 := PGROUNDDOWN srcva
    let pa0 ← walkaddr pagetable va0
    if pa0 = 0 then return (-1, dst)
    let n := min (PGSIZE - (srcva - va0)) len
    let bytes := ((← get).ram (pa0 / PGSIZE)).bytes (srcva - va0) n
    copyinLoop pagetable fuel (va0 + PGSIZE) (len - n) (dst ++ bytes)

def copyin (pagetable srcva len : Nat) : Kern (Int × List Byte) :=
  copyinLoop pagetable len srcva len []

/-- The loop of `copyinstr`: `got_null` ends it as soon as a page holds a zero byte in range. -/
def copyinstrLoop (pagetable : Nat) : Nat → Nat → Nat → List Byte → Kern (Int × List Byte)
  | 0, _, _, dst => return (-1, dst)
  | fuel + 1, srcva, max, dst => do
    if max = 0 then return (-1, dst)
    let va0 := PGROUNDDOWN srcva
    let pa0 ← walkaddr pagetable va0
    if pa0 = 0 then return (-1, dst)
    let n := min (PGSIZE - (srcva - va0)) max
    let bytes := ((← get).ram (pa0 / PGSIZE)).bytes (srcva - va0) n
    if bytes.contains 0 then
      return (0, dst ++ bytes.takeWhile (· ≠ 0) ++ [0])
    copyinstrLoop pagetable fuel (va0 + PGSIZE) (max - n) (dst ++ bytes)

def copyinstr (pagetable srcva max : Nat) : Kern (Int × List Byte) :=
  copyinstrLoop pagetable max srcva max []

end PbsCow
