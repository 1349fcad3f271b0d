import SymbolicOmega.Fault

/-!
# The unique table

Every distinct value is stored once, in a cell addressed by its index.  Cells with
the same hash residue form a chain through their `next` fields, starting at the
bucket of the residue and ending at 0.  Cell 0 is a sentry that is never handed
out.  Dropping a cell only marks it free: its value and link stay behind until the
cell is handed out again, always the lowest free one first.
-/

namespace SymbolicOmega

structure Cell (α : Type) where
  value : α
  next : Nat
  occupied : Bool
deriving Repr

structure UniqueTable (α : Type) where
  cells : Array (Cell α)
  /-- No cell at this index or beyond is ever handed out. -/
  capacity : Nat
  /-- First cell of each chain, 0 for an empty one. -/
  buckets : Array Nat
  /-- Every cell before this one is occupied. -/
  minFree : Nat
  /-- Index of the last cell that was ever asked for. -/
  lastIndex : Nat
  /-- Number of occupied cells, the sentry not counted. -/
  occupied : Nat
deriving Inhabited

/-- Operations on a unique table; what they changed before a failure stays changed. -/
abbrev TableM (α β : Type) := EStateM Fault (UniqueTable α) β

namespace UniqueTable

variable {α : Type}

/-- An empty table of at most `2^bits` cells, with one bucket per cell up to `2^16`. -/
def ofBits [Inhabited α] (bits : Nat) : Except Fault (UniqueTable α) :=
  if bits ≤ 31 then
    .ok {
      cells := #[⟨default, 0, true⟩]
      capacity := 1 <<< bits
      buckets := Array.replicate (1 <<< min bits 16) 0
      minFree := 1
      lastIndex := 0
      occupied := 0 }
  else .error .storageBitsTooLarge

/-- The cell at an index other than the sentry's. -/
def cell (t : UniqueTable α) (index : Nat) : Except Fault (Cell α) :=
  if index = 0 then .error .sentryAddressed
  else
    match t.cells[index]? with
    | some cell => .ok cell
    | none => .error .indexOutOfRange

/-- The value at `index`, also of a dropped cell. -/
def value (t : UniqueTable α) (index : Nat) : Except Fault α :=
  match t.cell index with
  | .ok cell => .ok cell.value
  | .error fault => .error fault

def next (t : UniqueTable α) (index : Nat) : Except Fault Nat :=
  match t.cell index with
  | .ok cell => .ok cell.next
  | .error fault => .error fault

def isOccupied (t : UniqueTable α) (index : Nat) : Except Fault Bool :=
  if index = 0 then .error .sentryAddressed
  else .ok (t.cells[index]?.any (·.occupied))

def bucketOf [Hashable α] (t : UniqueTable α) (value : α) : Nat :=
  (hash value % t.buckets.size.toUInt64).toNat

/-- The first cell of a chain, 0 for an empty one. -/
def head (t : UniqueTable α) (bucket : Nat) : Nat :=
  t.buckets[bucket]?.getD 0

def updateCell (index : Nat) (change : Cell α → Cell α) : TableM α Unit := fun t =>
  match t.cell index with
  | .ok _ => .ok () { t with cells := t.cells.modify index change }
  | .error fault => .error fault t

def setValue (index : Nat) (value : α) : TableM α Unit :=
  updateCell index fun cell => { cell with value }

def setNext (index next : Nat) : TableM α Unit :=
  updateCell index fun cell => { cell with next }

def setHead (bucket index : Nat) : TableM α Unit := fun t =>
  .ok () { t with buckets := t.buckets.setIfInBounds bucket index }

def firstFree? (cells : Array (Cell α)) : (start count : Nat) → Except Fault (Option Nat)
  | _, 0 => .ok none
  | start, count + 1 =>
      match cells[start]? with
      | none => .error .indexOutOfRange
      | some cell => if cell.occupied then firstFree? cells (start + 1) count else .ok (some start)

/-- Take the lowest free cell.  When all cells up to the last are taken the table
asks for one more, and has asked for it even if its capacity refuses. -/
def alloc [Inhabited α] : TableM α Nat := fun t =>
  match firstFree? t.cells t.minFree (t.lastIndex + 1 - t.minFree) with
  | .error fault => .error fault t
  | .ok found =>
      let index := found.getD (t.lastIndex + 1)
      let lastIndex := if found.isSome then t.lastIndex else index
      if t.capacity ≤ index then
        .error .storageFull { t with lastIndex }
      else
        .ok index { t with
          cells := (if index < t.cells.size then t.cells
            else t.cells.push ⟨default, 0, false⟩).modify index ({ · with occupied := true })
          minFree := index + 1
          lastIndex
          occupied := t.occupied + 1 }

/-- Store a value in a cell of its own, outside every chain. -/
def add [Inhabited α] (value : α) : TableM α Nat := do
  let index ← alloc
  updateCell index fun cell => { cell with value, next := 0 }
  return index

/-- Mark an occupied cell free.  Its chain still runs through it. -/
def drop (index : Nat) : TableM α Unit := fun t =>
  match t.cell index with
  | .error fault => .error fault t
  | .ok cell =>
      if cell.occupied then
        .ok () { t with
          cells := t.cells.modify index ({ · with occupied := false })
          minFree := min t.minFree index
          occupied := t.occupied - 1 }
      else .error (.cellNotOccupied index) t

/-! ## Hash-consing -/

/-- Where a walk along a chain came to: the cell with the value, or the last one. -/
inductive ChainEnd where
  | found (index : Nat)
  | last (index : Nat)
deriving DecidableEq, Repr

def walkChain [DecidableEq α] (t : UniqueTable α) (value : α) :
    (bound index : Nat) → Except Fault ChainEnd
  | 0, _ => .error .boundReached
  | bound + 1, index =>
      match t.cell index with
      | .error fault => .error fault
      | .ok cell =>
          if value = cell.value then .ok (.found index)
          else if cell.next = 0 then .ok (.last index)
          else walkChain t value bound cell.next

/-- Where `value` is or would be linked; `none` when its chain is empty. -/
def locate [DecidableEq α] [Hashable α] (t : UniqueTable α) (value : α) :
    Except Fault (Option ChainEnd) :=
  if t.head (t.bucketOf value) = 0 then .ok none
  else
    match t.walkChain value t.cells.size (t.head (t.bucketOf value)) with
    | .ok chainEnd => .ok (some chainEnd)
    | .error fault => .error fault

/-- The index of `value`, which is stored at the end of its chain if it is not there yet. -/
def put [DecidableEq α] [Hashable α] [Inhabited α] (value : α) : TableM α Nat := fun t =>
  match t.locate value with
  | .error fault => .error fault t
  | .ok (some (.found index)) => .ok index t
  | .ok (some (.last last)) =>
      (do
        let index ← add value
        setNext last index
        return index) t
  | .ok none =>
      let bucket := t.bucketOf value
      (do
        let index ← add value
        setHead bucket index
        return index) t

/-! ## Sweeping -/

structure Sweep where
  /-- Cells asked about, the latest first. -/
  visited : List Nat
  dropped : Nat
deriving Repr

/-- The buckets below `bound` that have a chain, in front of `rest`. -/
def chainedBuckets (t : UniqueTable α) : (bound : Nat) → (rest : List Nat) → List Nat
  | 0, rest => rest
  | bound + 1, rest =>
      chainedBuckets t bound (if t.head bound = 0 then rest else bound :: rest)

def followLink (index : Nat) : TableM α Nat := fun t =>
  match t.next index with
  | .ok next => .ok next t
  | .error fault => .error fault t

/-- Drop the cells of one chain that `keep` refuses.  Answers the kept cells, the
latest first. -/
def sweepChain (keep : Nat → Bool) :
    (bound index : Nat) → (kept : List Nat) → Sweep → TableM α (List Nat × Sweep)
  | _, 0, kept, sweep => return (kept, sweep)
  | 0, _, _, _ => throw .boundReached
  | bound + 1, index + 1, kept, sweep => do
      let next ← followLink (index + 1)
      let visited := (index + 1) :: sweep.visited
      if keep (index + 1) then
        sweepChain keep bound next ((index + 1) :: kept) { sweep with visited }
      else
        drop (index + 1)
        sweepChain keep bound next kept ⟨visited, sweep.dropped + 1⟩

def linkChain : List Nat → TableM α Unit
  | [] => return ()
  | [last] => setNext last 0
  | first :: second :: rest => do
      setNext first second
      linkChain (second :: rest)

/-- Sweep the chain of one bucket and link what is left of it.  A chain may have been
bent back on itself; the second round over it drops a cell again, which fails, or
would never end. -/
def sweepBucket (keep : Nat → Bool) (sweep : Sweep) (bucket : Nat) : TableM α Sweep := do
  let (head, bound) ← modifyGet fun t => ((t.head bucket, 2 * t.cells.size), t)
  let (kept, sweep) ← sweepChain keep bound head [] sweep
  setHead bucket (kept.reverse.headD 0)
  linkChain kept.reverse
  return sweep

/-- Drop every chained cell that `keep` refuses.  Cells outside every chain are
not asked about. -/
def retain (keep : Nat → Bool) : TableM α Sweep := do
  let buckets ← modifyGet fun t => (t.chainedBuckets t.buckets.size [], t)
  buckets.foldlM (sweepBucket keep) ⟨[], 0⟩

end UniqueTable

end SymbolicOmega
