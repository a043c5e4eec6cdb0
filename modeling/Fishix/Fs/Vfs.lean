import Fishix.Common.CString
import Fishix.Common.Outcome

/-!
# Directory entries and path lookup

Model of `fs/vfs.cpp` lines 112-237 and 1075-1088 and of `fs/vfs.hpp` lines 77-101: entries,
`find_child`, `lookup`, `create`, `path_to_entry` and `symlinkat_impl`, with what `tmpfs`
and `procfs` do for them (fs/tmpfs.cpp:17-37, 112-130, fs/procfs.cpp:26-46).

An `Entry*` is the number of the entry: entries and nodes are never freed. `path` points into
memory (`Common/CString.lean`), and `path_len` is carried beside it as in the source.
`path_to_entry` calls itself for every symlink it follows; `pathTurn` is what one call does
before that, and `pathToEntry` bounds the number of calls.

Owners, modes, times and inode numbers, which no modelled function reads, are left out.
-/

namespace Fishix.Fs

/-- `NodeType` (fs/vfs.hpp:21-35). -/
inductive NodeType
  | hardLink | regular | directory | charDevice | blockDevice | symlink | fifo | socket | epoll
  | inotify | eventfd | signalfd | memfd
  deriving DecidableEq

abbrev EntryId := ℕ
abbrev VNodeId := ℕ

/-- A path component, without the NUL. -/
abbrev Name := List CChar

/-- `VNode` (fs/vfs.hpp:44-75). -/
structure VNode where
  nodeType : NodeType
  /-- What `read` copies from: the storage of a `tmpfs::Node`, the text an `InfoNode` prints.
      `none` for a node class without `read`. -/
  data : Option (List CChar)
  deriving DecidableEq

/-- `Entry` (fs/vfs.hpp:77-101). `children` is `children_list` from its head on. -/
structure Entry where
  vnode : Option VNodeId := none
  parent : Option EntryId := none
  redirect : Option EntryId := none
  children : List EntryId := []
  nameHash : BitVec 32
  name : Name
  deriving DecidableEq

/-- What stops the kernel inside a path lookup. -/
inductive Fault
  /-- A null pointer is followed. -/
  | nullPointer
  /-- A read runs past the memory of a string. -/
  | overrun
  /-- A write runs past `new_path`. -/
  | overflow
  /-- The bound on the number of calls is used up. -/
  | outOfCalls
  /-- An `ASSERT` fails. -/
  | assertion
  deriving DecidableEq

/-- All entries and nodes. -/
structure Vfs where
  entries : List Entry
  nodes : List VNode
  root : EntryId
  nullEntry : EntryId
  deriving DecidableEq

/-! ## Entries -/

/-- `Entry::construct` (fs/vfs.cpp:112-123), without the allocation. -/
def Entry.construct (vnode : Option VNodeId) (parent : Option EntryId) (name : Name)
    (redirect : Option EntryId) : Entry :=
  { vnode, parent, redirect, nameHash := hash name, name }

namespace Vfs

def entry (v : Vfs) (e : EntryId) : Entry :=
  v.entries.getD e (Entry.construct none none [] none)

def updateEntry (v : Vfs) (e : EntryId) (f : Entry → Entry) : Vfs :=
  { v with entries := v.entries.modify e f }

def node (v : Vfs) (e : EntryId) : Option VNode :=
  (v.entry e).vnode.bind fun n => v.nodes[n]?

/-- `malloc` of an entry. -/
def alloc (v : Vfs) (x : Entry) : EntryId × Vfs :=
  (v.entries.length, { v with entries := v.entries ++ [x] })

/-- `Entry::add_child` (fs/vfs.hpp:86): `children_list.add` puts the child first. -/
def addChild (v : Vfs) (e child : EntryId) : Vfs :=
  v.updateEntry e fun x => { x with children := child :: x.children }

/-- `Entry::reduce` (fs/vfs.hpp:88) along at most `n` redirections. -/
def reduceFuel (v : Vfs) : ℕ → EntryId → EntryId
  | 0, e => e
  | n + 1, e =>
    match (v.entry e).redirect with
    | some r => reduceFuel v n r
    | none => e

/-- `Entry::reduce` (fs/vfs.hpp:88): no chain of redirections is longer than the entries. -/
def reduce (v : Vfs) (e : EntryId) : EntryId := v.reduceFuel v.entries.length e

/-- `Entry::find_child` (fs/vfs.cpp:125-132). -/
def findChild (v : Vfs) (e : EntryId) (childName : Name) : Option EntryId :=
  (v.entry e).children.find? fun child =>
    (v.entry child).nameHash == hash childName && (v.entry child).name == childName

/-- `vfs::lookup` (fs/vfs.cpp:169-177) with `Entry::lookup` (fs/vfs.cpp:134-139), where
    `Filesystem::lookup` does nothing in `tmpfs` and `procfs`. -/
def lookup (v : Vfs) (parent : EntryId) (filename : Name) : EntryId × Vfs :=
  match v.findChild parent filename with
  | some result => (result, v)
  | none =>
    let (e, v) := v.alloc (Entry.construct none (some parent) filename none)
    match v.findChild (v.reduce parent) filename with
    | some _ => (e, v)
    | none => (e, v.addChild parent e)

/-- `VNode::read(nullptr, buf, count, 0)`: the bytes copied, `none` for an error. -/
def readStart (v : Vfs) (e : EntryId) (count : ℕ) : Option (List CChar) :=
  match v.node e with
  | none => none
  | some n => if n.nodeType = .directory then none else n.data.map (·.take count)

end Vfs

/-! ## `path_to_entry` -/

/-- `'/'`. -/
def slash : CChar := 0x2f#8

/-- The size of `new_path` (fs/vfs.cpp:220). -/
def newPathSize : ℕ := 256

/-- What one call of `path_to_entry` comes to: the entry it returns, or the arguments of the
    call it makes in turn. -/
inductive Turn
  | done (entry : EntryId) (v : Vfs)
  | expand (path : List CChar) (startingPoint : EntryId)
  deriving DecidableEq

def orFault {α : Type} (fault : Fault) : Option α → Except Fault α
  | none => .error fault
  | some a => .ok a

/-- `new_path` after `read` and `strcpy` (fs/vfs.cpp:220-224). -/
def newPath (target s : List CChar) : Except Fault (List CChar) := do
  let len ← orFault .overrun (strlen s)
  if target.length + len + 1 ≤ newPathSize then
    .ok (target ++ cstr s ++ List.replicate (newPathSize - target.length - len) 0#8)
  else .error .overflow

/-- The loop body from `lookup` on (fs/vfs.cpp:215-231) for the component `entryName`, with `s`
    pointing behind it: what the call comes to, or the entry to go on from. -/
def component (v : Vfs) (followLastSymlink : Bool) (currentEntry : EntryId) (entryName : Name)
    (last : Bool) (s : List CChar) : Except Fault (Turn ⊕ EntryId) := do
  let (nextEntry, v') := v.lookup currentEntry entryName
  match v'.node nextEntry with
  | none => return .inl (.done (if last then nextEntry else v.nullEntry) v')
  | some next =>
    -- an entry with a node was there before, so the tree is `v` still
    if (!last || followLastSymlink) ∧ next.nodeType = .symlink then
      match v.readStart nextEntry 128 with
      | none => return .inl (.done v.nullEntry v)
      | some target =>
        if target.length > 127 then return .inl (.done v.nullEntry v)
        else do
          let path ← newPath target s
          return .inl (.expand path currentEntry)
    else if last then return .inl (.done nextEntry v)
    else return .inr nextEntry

/-- The loop of `path_to_entry` (fs/vfs.cpp:194-234). Every turn moves `path` on, so the bytes
    behind the pointer bound the number of `turns`. -/
def walk (v : Vfs) (followLastSymlink : Bool) :
    ℕ → EntryId → List CChar → ℕ → Except Fault Turn
  | 0, _, _, _ => .error .overrun
  | turns + 1, currentEntry, path, pathLen => do
    let current ← orFault .nullPointer (v.node currentEntry)
    if current.nodeType ≠ .directory then return .done v.nullEntry v
    let found := strchr path slash
    let last := decide (found = none ∨ found = some (pathLen - 1))
    if !last ∧ found = some 0 then
      -- a duplicate slash: `path_len` stays as it is
      walk v followLastSymlink turns currentEntry (path.drop 1) pathLen
    else do
      let s := found.getD pathLen
      let entryName ← orFault .overrun (memcpyFrom path s)
      match ← component v followLastSymlink currentEntry (cstr entryName) last (path.drop s) with
      | .inl turn => return turn
      | .inr nextEntry =>
        walk v followLastSymlink turns (v.reduce nextEntry) (path.drop (s + 1)) (pathLen - (s + 1))

/-- `path_to_entry` (fs/vfs.cpp:180-237) up to the call of itself. -/
def pathTurn (v : Vfs) (followLastSymlink : Bool) (path : List CChar)
    (startingPoint : Option EntryId) : Except Fault Turn := do
  let pathLen ← orFault .overrun (strlen path)
  if pathLen = 0 then return .done v.nullEntry v
  else if path.head? = some slash then
    if pathLen = 1 then return .done v.root v
    else walk v followLastSymlink path.length v.root path.tail (pathLen - 1)
  else
    match startingPoint with
    | none => return .done v.nullEntry v
    | some start => walk v followLastSymlink path.length (v.reduce start) path pathLen

/-- `path_to_entry` (fs/vfs.cpp:180-237) with at most `calls` calls: the entry returned and the
    tree left behind. -/
def pathToEntry (v : Vfs) (followLastSymlink : Bool) :
    ℕ → List CChar → Option EntryId → Except Fault (EntryId × Vfs)
  | 0, _, _ => .error .outOfCalls
  | calls + 1, path, startingPoint => do
    match ← pathTurn v followLastSymlink path startingPoint with
    | .done e v' => return (e, v')
    | .expand path start => pathToEntry v followLastSymlink calls path (some start)

/-! ## Creating entries -/

namespace Vfs

/-- `Entry::create` (fs/vfs.cpp:141-162) with `tmpfs::Filesystem::create`
    (fs/tmpfs.cpp:21-37) for an entry without node. -/
def create (v : Vfs) (e : EntryId) (newNodeType : NodeType) : Except Fault Vfs := do
  let parent ← orFault .nullPointer (v.entry e).parent
  let n := v.nodes.length
  let v := { v with nodes := v.nodes ++ [VNode.mk newNodeType (some [])] }
  let v := v.updateEntry e fun x => { x with vnode := some n }
  let v := match v.findChild parent (v.entry e).name with
    | some _ => v
    | none => v.addChild parent e
  if newNodeType = .directory then
    let (dot, v) := v.alloc (Entry.construct (some n) (some e) (chars ".") (some e))
    let v := v.addChild e dot
    let (dotdot, v) :=
      v.alloc (Entry.construct (v.entry parent).vnode (some e) (chars "..") (some parent))
    return v.addChild e dotdot
  else return v

/-- `VNode::write(nullptr, buf, count, 0)` of a new `tmpfs` node (fs/tmpfs.cpp:122-130). -/
def writeStart (v : Vfs) (e : EntryId) (buf : List CChar) : Vfs :=
  match (v.entry e).vnode with
  | none => v
  | some n => { v with nodes := v.nodes.modify n fun x => { x with data := some buf } }

end Vfs

/-- The errors of the calls on paths. -/
inductive Errno
  | enoent | eexist | eisdir | enotdir | eloop | einval | eaddrinuse
  deriving DecidableEq

/-- `symlinkat_impl` (fs/vfs.cpp:1075-1088) with the starting point looked up. -/
def symlinkatImpl (v : Vfs) (calls : ℕ) (targetPath linkPath : List CChar)
    (startingPoint : Option EntryId) : Except Fault (Except Errno Unit × Vfs) := do
  let (e, v) ← pathToEntry v true calls linkPath startingPoint
  if (v.entry e).parent = none then return (.error .enoent, v)
  else if (v.entry e).vnode ≠ none then return (.error .eexist, v)
  else do
    let v ← v.create e .symlink
    return (.ok (), v.writeStart e (cstr targetPath))

/-- `mkdirat_impl` (fs/vfs.cpp:448-460) with the starting point looked up. -/
def mkdiratImpl (v : Vfs) (calls : ℕ) (path : List CChar) (startingPoint : Option EntryId) :
    Except Fault (Except Errno Unit × Vfs) := do
  let (e, v) ← pathToEntry v true calls path startingPoint
  if (v.entry e).vnode ≠ none then return (.error .eexist, v)
  else if (v.entry e).parent = none then return (.error .enoent, v)
  else do
    let v ← v.create e .directory
    return (.ok (), v)

/-- The tree `vfs::init` leaves (fs/vfs.cpp:46-64): the root with its two entries and the null
    entry. -/
def Vfs.booted : Vfs :=
  let v : Vfs :=
    { entries := [Entry.construct (some 0) none [] none, Entry.construct none none [] none]
      nodes := [⟨.directory, some []⟩], root := 0, nullEntry := 1 }
  let (dot, v) := v.alloc (Entry.construct (some 0) (some v.root) (chars ".") (some v.root))
  let v := v.addChild v.root dot
  let (dotdot, v) := v.alloc (Entry.construct (some 0) (some v.root) (chars "..") (some v.root))
  v.addChild v.root dotdot

end Fishix.Fs
