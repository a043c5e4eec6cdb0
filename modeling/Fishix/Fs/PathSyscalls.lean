import Fishix.Fs.Vfs

/-!
# The calls on paths

Model of `openat_impl` (fs/vfs.cpp:338-390), `mkdirat_impl`, `unlinkat_impl` (fs/vfs.cpp:600-611),
`renameat_impl` (fs/vfs.cpp:808-828), `linkat_impl` (fs/vfs.cpp:1043-1063), `symlinkat_impl`,
`mknodat_impl` (fs/vfs.cpp:1257-1305), of `bind` on a local socket (userland/socket/local/
stream.cpp:73-90, datagram.cpp:63-80) and of the calls that only look a path up, each from the
starting point on.

What keeps the kernel from going on (a null pointer, a failed assertion) is a `Fault`; an errno is
returned. `remove` clears the links of the entry it takes out of a list; of an entry that is in
none, only the root, this is remembered in `rootUnlinked`.
-/

namespace Fishix.Fs

/-- The tree between two calls. -/
structure Tree where
  vfs : Vfs
  /-- `remove` has cleared the `sibling_link` of the root, which pointed to itself. -/
  rootUnlinked : Bool := false
  deriving DecidableEq

namespace Vfs

/-- `parent->add_child(this)` behind `!parent->find_child(name)` (fs/vfs.cpp:146-147). -/
def addMissing (v : Vfs) (parent e : EntryId) : Vfs :=
  match v.findChild parent (v.entry e).name with
  | some _ => v
  | none => v.addChild parent e

/-- The entries `.` and `..` of a directory (fs/vfs.cpp:149-150). -/
def addDots (v : Vfs) (parent e : EntryId) : Vfs :=
  let (dot, v) := v.alloc (Entry.construct (v.entry e).vnode (some e) (chars ".") (some e))
  let v := v.addChild e dot
  let (dotdot, v) :=
    v.alloc (Entry.construct (v.entry parent).vnode (some e) (chars "..") (some parent))
  v.addChild e dotdot

/-- `Entry::create` (fs/vfs.cpp:146-152) for an entry that has its node. -/
def enter (v : Vfs) (parent e : EntryId) : Vfs :=
  let v := v.addMissing parent e
  if (v.node e).map (·.nodeType) = some .directory then v.addDots parent e else v

/-- `Entry::create(NodeType::HARD_LINK)` of an entry that was given a node. -/
def createLink (v : Vfs) (e : EntryId) : Except Fault Vfs := do
  let parent ← orFault .nullPointer (v.entry e).parent
  return v.enter parent e

/-- `Entry::create` behind `entry->vnode = new ...`. -/
def createNode (v : Vfs) (e : EntryId) (x : VNode) : Except Fault Vfs := do
  let parent ← orFault .nullPointer (v.entry e).parent
  let v := { v with nodes := v.nodes ++ [x] }
  let v := v.updateEntry e fun y => { y with vnode := some (v.nodes.length - 1) }
  return v.enter parent e

/-- `sibling_link.remove()` of an entry in the list of `parent`. -/
def unlink (v : Vfs) (parent e : EntryId) : Vfs :=
  v.updateEntry parent fun x => { x with children := x.children.erase e }

/-- `VNode::truncate(description, 0)` of a `tmpfs` node (fs/tmpfs.cpp:157-166). -/
def truncateNode (v : Vfs) (n : VNodeId) : Vfs :=
  { v with nodes := v.nodes.modify n fun x => { x with data := some [] } }

end Vfs

namespace Tree

/-- `Entry::remove` (fs/vfs.cpp:164-168). -/
def remove (t : Tree) (e : EntryId) : Except Fault Tree := do
  let _ ← orFault .nullPointer (t.vfs.entry e).vnode
  match (t.vfs.entry e).parent with
  | some parent =>
    if e ∈ (t.vfs.entry parent).children then return { t with vfs := t.vfs.unlink parent e }
    else .error .nullPointer
  | none =>
    if t.rootUnlinked then .error .nullPointer else return { t with rootUnlinked := true }

end Tree

/-- Where a path starts and is read from; `calls` bounds what `path_to_entry` calls. -/
structure PathArg where
  path : List CChar
  start : Option EntryId := none
  calls : ℕ
  deriving DecidableEq

def PathArg.lookup (a : PathArg) (v : Vfs) (followLastSymlink : Bool) :
    Except Fault (EntryId × Vfs) :=
  pathToEntry v followLastSymlink a.calls a.path a.start

/-- The flags of `open` that `openat_impl` reads; `write` for `O_WRONLY` and `O_RDWR`. -/
structure OpenFlags where
  creat : Bool := false
  excl : Bool := false
  directory : Bool := false
  nofollow : Bool := false
  trunc : Bool := false
  write : Bool := false
  deriving DecidableEq

/-- The type a mode asks `mknod` for; a device is one that `create_node` knows, or not. -/
inductive MknodType
  | regular
  | charDevice (known : Bool)
  | blockDevice (known : Bool)
  | fifo
  | unsupported
  deriving DecidableEq

/-- What `mknodat_impl` stores into `entry->vnode` before it creates the entry. -/
def MknodType.node : MknodType → Option VNode
  | .charDevice true => some ⟨.charDevice, none⟩
  | .blockDevice true => some ⟨.blockDevice, none⟩
  | .fifo => some ⟨.fifo, none⟩
  | _ => none

namespace Vfs

/-- `openat_impl` (fs/vfs.cpp:338-390) up to the descriptor, for a node that opens. -/
def openat (v : Vfs) (a : PathArg) (flags : OpenFlags) :
    Except Fault (Except Errno Unit × Vfs) := do
  let (e, v) ← a.lookup v (!flags.nofollow)
  match (v.entry e).vnode, v.node e with
  | some n, some x =>
    if x.nodeType = .symlink then
      if flags.nofollow then return (.error .eloop, v) else .error .assertion
    else if flags.excl then return (.error .eexist, v)
    else if x.nodeType = .directory then
      if flags.write ∨ flags.creat then return (.error .eisdir, v) else return (.ok (), v)
    else if flags.directory then return (.error .enotdir, v)
    else if flags.trunc ∧ x.nodeType = .regular then return (.ok (), v.truncateNode n)
    else return (.ok (), v)
  | _, _ =>
    if !flags.creat then return (.error .enoent, v)
    else if (v.entry e).parent = none then return (.error .enoent, v)
    else do
      let v ← v.create e .regular
      return (.ok (), v)

/-- `mknodat_impl` (fs/vfs.cpp:1257-1305). -/
def mknodat (v : Vfs) (a : PathArg) (type : MknodType) :
    Except Fault (Except Errno Unit × Vfs) := do
  let (e, v) ← a.lookup v true
  if (v.entry e).vnode ≠ none then return (.error .eexist, v)
  else if (v.entry e).parent = none then return (.error .enoent, v)
  else
    match type, type.node with
    | .regular, _ => do
      let v ← v.create e .regular
      return (.ok (), v)
    | _, some x => do
      let v ← v.createNode e x
      return (.ok (), v)
    | _, none => return (.error .einval, v)

/-- `LocalStreamSocket::bind` and `LocalDatagramSocket::bind`. -/
def bind (v : Vfs) (a : PathArg) : Except Fault (Except Errno Unit × Vfs) := do
  let (e, v) ← a.lookup v true
  if (v.entry e).vnode ≠ none then return (.error .eaddrinuse, v)
  else if (v.entry e).parent = none then return (.error .enoent, v)
  else do
    let v ← v.createNode e ⟨.socket, none⟩
    return (.ok (), v)

/-- `new_entry->vnode = old_entry->vnode`. -/
def shareNode (v : Vfs) (new old : EntryId) : Vfs :=
  v.updateEntry new fun x => { x with vnode := (v.entry old).vnode }

/-- `linkat_impl` (fs/vfs.cpp:1043-1063). -/
def linkat (v : Vfs) (old new : PathArg) : Except Fault (Except Errno Unit × Vfs) := do
  let (oldEntry, v) ← old.lookup v true
  if (v.entry oldEntry).vnode = none then return (.error .enoent, v)
  else do
    let (newEntry, v) ← new.lookup v true
    if (v.entry newEntry).vnode ≠ none then return (.error .eexist, v)
    else do
      let v ← (v.shareNode newEntry oldEntry).createLink newEntry
      return (.ok (), v)

end Vfs

namespace Tree

/-- `unlinkat_impl` (fs/vfs.cpp:600-611). -/
def unlinkat (t : Tree) (a : PathArg) (removeDir : Bool) :
    Except Fault (Except Errno Unit × Tree) := do
  let (e, v) ← a.lookup t.vfs true
  let t := { t with vfs := v }
  match v.node e with
  | none => return (.error .enoent, t)
  | some x =>
    if x.nodeType = .directory ∧ !removeDir then return (.error .eisdir, t)
    else do
      let t ← t.remove e
      return (.ok (), t)

/-- `renameat_impl` (fs/vfs.cpp:808-828). -/
def renameat (t : Tree) (old new : PathArg) : Except Fault (Except Errno Unit × Tree) := do
  let (oldEntry, v) ← old.lookup t.vfs true
  if (v.entry oldEntry).vnode = none then return (.error .enoent, { t with vfs := v })
  else do
    let (newEntry, v) ← new.lookup v true
    let t := { t with vfs := v }
    let t ← if (v.entry newEntry).vnode ≠ none then t.remove newEntry else pure t
    let v ← (t.vfs.shareNode newEntry oldEntry).createLink newEntry
    let t ← Tree.remove { t with vfs := v } oldEntry
    return (.ok (), t)

end Tree

/-! ## Runs -/

/-- The calls on paths; `lookup` stands for those that change nothing: `stat`, `access`,
    `readlink`, `chdir`, `execve`, `connect`. -/
inductive PathOp
  | lookup (a : PathArg) (followLastSymlink : Bool)
  | openat (a : PathArg) (flags : OpenFlags)
  | mkdirat (a : PathArg)
  | mknodat (a : PathArg) (type : MknodType)
  | symlinkat (target : List CChar) (a : PathArg)
  | linkat (old new : PathArg)
  | renameat (old new : PathArg)
  | unlinkat (a : PathArg) (removeDir : Bool)
  | bind (a : PathArg)
  deriving DecidableEq

namespace Tree

/-- A call that leaves the links of the root alone. -/
def lift (t : Tree) (x : Except Fault (Except Errno Unit × Vfs)) :
    Except Fault (Except Errno Unit × Tree) :=
  x.map fun r => (r.1, { t with vfs := r.2 })

/-- One call: what it returns, and the tree behind it. -/
def call (t : Tree) : PathOp → Except Fault (Except Errno Unit × Tree)
  | .lookup a follow => t.lift ((a.lookup t.vfs follow).map fun r =>
      (if (r.2.entry r.1).vnode = none then .error .enoent else .ok (), r.2))
  | .openat a flags => t.lift (t.vfs.openat a flags)
  | .mkdirat a => t.lift (mkdiratImpl t.vfs a.calls a.path a.start)
  | .mknodat a type => t.lift (t.vfs.mknodat a type)
  | .symlinkat target a => t.lift (symlinkatImpl t.vfs a.calls target a.path a.start)
  | .linkat old new => t.lift (t.vfs.linkat old new)
  | .renameat old new => t.renameat old new
  | .unlinkat a removeDir => t.unlinkat a removeDir
  | .bind a => t.lift (t.vfs.bind a)

def step (t : Tree) (op : PathOp) : Except Fault Tree := (t.call op).map (·.2)

def booted : Tree := { vfs := Vfs.booted }

end Tree

end Fishix.Fs
