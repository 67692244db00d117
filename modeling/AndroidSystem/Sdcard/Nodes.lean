/-
The nodes of `sdcard` and the requests that change them (`sdcard/sdcard.c`).

The daemon has a node for every file that the kernel knows.  A node is named to the kernel by its
address, counts the references to it, and is linked into the list of its parent; the root has
the number 1.  The kernel takes a reference with every entry reply and returns references with
`FORGET`.

* `Fuse` — the nodes.  `live` has the addresses that are allocated: an access to any other
  address, or a loop that does not end, has no result.
* `releaseNode`, `addNodeToParent`, `removeNodeFromParent`, `createNode`, `renameNode` — the
  functions on nodes.
* `getNodePath`, `findFileWithin` — the path of a node, and that of a name in a directory.
* `Request`, `World` — a request, and what the system answers while it is handled: results of
  system calls, allocated addresses, and whether the reply can be written.
* `handleFuseRequest` — the handler.
-/
import AndroidSystem.Sdcard.Derive

open CInt

namespace Sdcard

/-! ### Nodes -/

/-- `struct node`.  Pointers are addresses, with 0 for `NULL`. -/
structure Node where
  refcount : ℕ
  gen : ℕ
  derived : Derived
  next : ℕ
  child : ℕ
  parent : ℕ
  name : Name
  actualName : Option Name
  deriving DecidableEq, Repr

/-- `FUSE_ROOT_ID`, which also stands for the address of the root. -/
def rootId : ℕ := 1

/-- The parts of `struct fuse` that change. -/
structure Fuse where
  nodes : ℕ → Node
  live : List ℕ
  nextGeneration : ℕ

/-- The parts of `struct fuse` that do not change; `package_to_appid` and `appid_with_rw` are
those of one package list. -/
structure Env where
  config : Config
  sourcePath : Name
  packages : Packages
  appidWithRw : List ℕ

/-- `PATH_MAX` -/
def pathMax : ℕ := 4096

/-- The shared OBB directory, as `snprintf` writes it. -/
def Env.obbpath (env : Env) : Name :=
  (env.sourcePath ++ text (if env.config.derive = .legacy then "/obb" else "/Android/obb")).take
    (pathMax - 1)

namespace Fuse

/-- A read of a node. -/
def load (s : Fuse) (a : ℕ) : Option Node := if a ∈ s.live then some (s.nodes a) else none

/-- A write to a node. -/
def store (s : Fuse) (a : ℕ) (n : Node) : Fuse :=
  { s with nodes := Function.update s.nodes a n }

/-- A node is freed. -/
def free (s : Fuse) (a : ℕ) : Fuse := { s with live := s.live.filter (· ≠ a) }

/-- A bound for the loops and the recursion: none visits a node twice. -/
def bound (s : Fuse) : ℕ := s.live.length + 1

/-- `acquire_node_locked` -/
def acquireNode (s : Fuse) (a : ℕ) : Option Fuse := do
  let n ← s.load a
  some (s.store a { n with refcount := u32 (n.refcount + 1) })

/-- The loop of `remove_node_from_parent_locked`: the node before `a` in the list. -/
def before (s : Fuse) (a : ℕ) : ℕ → ℕ → Option ℕ
  | 0, _ => none
  | fuel + 1, b => do
    let n ← s.load b
    if n.next = a then some b else before s a fuel n.next

/-- The part of `remove_node_from_parent_locked` that changes the list. -/
def unlinkNode (s : Fuse) (a parent next : ℕ) : Option Fuse := do
  let p ← s.load parent
  if p.child = a then some (s.store parent { p with child := next })
  else
    let b ← s.before a s.bound p.child
    let n ← s.load b
    some (s.store b { n with next := next })

/-- `remove_node_from_parent_locked`, with the function that releases the parent. -/
def removeNodeWith (release : Fuse → ℕ → Option Fuse) (s : Fuse) (a : ℕ) : Option Fuse := do
  let n ← s.load a
  if n.parent ≠ 0 then
    let s ← s.unlinkNode a n.parent n.next
    let s ← release s n.parent
    let n ← s.load a
    some (s.store a { n with parent := 0, next := 0 })
  else some s

/-- `release_node_locked`: a node without references releases its parent. -/
def releaseWithin : ℕ → Fuse → ℕ → Option Fuse
  | 0, _, _ => none
  | fuel + 1, s, a => do
    let n ← s.load a
    if 0 < n.refcount then
      let s := s.store a { n with refcount := n.refcount - 1 }
      if n.refcount - 1 = 0 then
        let s ← removeNodeWith (releaseWithin fuel) s a
        some (s.free a)
      else some s
    else some s

/-- `release_node_locked` -/
def releaseNode (s : Fuse) (a : ℕ) : Option Fuse := releaseWithin s.bound s a

/-- `remove_node_from_parent_locked` -/
def removeNodeFromParent (s : Fuse) (a : ℕ) : Option Fuse := removeNodeWith releaseNode s a

/-- `add_node_to_parent_locked` -/
def addNodeToParent (s : Fuse) (a parent : ℕ) : Option Fuse := do
  let p ← s.load parent
  let n ← s.load a
  let s := s.store a { n with parent := parent, next := p.child }
  let p ← s.load parent
  (s.store parent { p with child := a }).acquireNode parent

/-- The loop of `lookup_child_by_name_locked`; 0 if there is no such node. -/
def lookupFrom (s : Fuse) (name : Name) : ℕ → ℕ → Option ℕ
  | 0, _ => none
  | fuel + 1, a =>
    if a = 0 then some 0
    else do
      let n ← s.load a
      if name = n.name then some a else lookupFrom s name fuel n.next

/-- `lookup_child_by_name_locked` -/
def lookupChildByName (s : Fuse) (parent : ℕ) (name : Name) : Option ℕ := do
  let p ← s.load parent
  s.lookupFrom name s.bound p.child

end Fuse

/-! ### Allocation -/

/-- The results of the allocations of a request: the address of a node, and whether there is
memory for the name and for the actual name. -/
structure Alloc where
  node : Option ℕ
  name : Bool
  actualName : Bool
  deriving DecidableEq, Repr

/-- The address of a new node, if all of its parts can be allocated. -/
def Alloc.address (m : Alloc) (name actual : Name) : Option ℕ :=
  if m.name ∧ (name = actual ∨ m.actualName) then m.node else none

namespace Fuse

/-- The actual name is kept if it is another one. -/
def keepActual (name actual : Name) : Option Name := if name = actual then none else some actual

/-- `create_node_locked`; 0 if there is no memory. -/
def createNode (env : Env) (s : Fuse) (parent : ℕ) (name actual : Name) (m : Alloc) :
    Option (Fuse × ℕ) :=
  match m.address name actual with
  | none => some (s, 0)
  | some a => do
    let p ← s.load parent
    let n : Node :=
      { refcount := 0
        gen := s.nextGeneration
        derived := derive env.config env.packages p.derived name
        next := 0
        child := 0
        parent := 0
        name := name
        actualName := keepActual name actual }
    let s : Fuse :=
      ⟨Function.update s.nodes a n, a :: s.live, (s.nextGeneration + 1) % 2 ^ 64⟩
    let s ← s.acquireNode a
    let s ← s.addNodeToParent a parent
    some (s, a)

/-- `rename_node_locked`, with whether the name and the actual name can be enlarged, and whether an
actual name can be allocated; `false` is `-ENOMEM`. -/
def renameNode (s : Fuse) (a : ℕ) (name actual : Name) (m : Alloc) : Option (Fuse × Bool) := do
  let n ← s.load a
  let grows := n.name.length < name.length
  if grows ∧ ¬ m.name then some (s, false)
  else if name ≠ actual ∧ (n.actualName = none ∨ grows) ∧ ¬ m.actualName then some (s, false)
  else some (s.store a { n with name := name, actualName := keepActual name actual }, true)

/-- `acquire_or_create_child_locked` -/
def acquireOrCreateChild (env : Env) (s : Fuse) (parent : ℕ) (name actual : Name) (m : Alloc) :
    Option (Fuse × ℕ) := do
  let child ← s.lookupChildByName parent name
  if child ≠ 0 then
    let s ← s.acquireNode child
    some (s, child)
  else s.createNode env parent name actual m

/-! ### Paths -/

/-- The name of a node in the path: the grafted path, the actual name or the name.  The actual
name is as long as the name. -/
def component (env : Env) (n : Node) : Name :=
  if n.derived.grafted then env.obbpath else n.actualName.getD n.name

/-- `get_node_path_locked`: the path in a buffer of the given size, or `none` for -1.  Nothing in it
checks that the remaining size is not negative. -/
def getNodePath (env : Env) (s : Fuse) : ℕ → ℕ → ℕ → Option (Option Name)
  | 0, _, _ => none
  | fuel + 1, a, bufsize => do
    let n ← s.load a
    let name := component env n
    if bufsize < name.length + 1 then some none
    else if n.parent ≠ 0 ∧ ¬ n.derived.grafted then
      let path ← getNodePath env s fuel n.parent (usub bufsize (name.length + 2))
      some (path.map (· ++ 47 :: name))
    else some (some name)

/-- The path of a node in a buffer of `PATH_MAX` bytes.  To write past its end has no result. -/
def nodePath (env : Env) (s : Fuse) (a : ℕ) : Option (Option Name) := do
  let path ← getNodePath env s s.bound a pathMax
  if (path.getD []).length < pathMax then some path else none

end Fuse

/-- A directory, as seen by `access` and `readdir`: whether the name is there, and the entries,
if the directory can be opened. -/
structure Dir where
  access : Bool
  entries : Option (List Name)
  deriving DecidableEq, Repr

/-- `find_file_within`, in a buffer of `PATH_MAX` bytes: the path and the actual name. -/
def findFileWithin (path name : Name) (search : Bool) (dir : Dir) : Option (Name × Name) :=
  if pathMax ≤ path.length + name.length + 1 then none
  else
    let actual :=
      if search && !dir.access then
        ((dir.entries.getD []).find? fun entry => icaseEq entry name).getD name
      else name
    some (path ++ 47 :: actual, actual)

/-! ### Access -/

/-- `multiuser_get_app_id` -/
def multiuserGetAppId (uid : ℕ) : ℕ := uid % 100000

/-- `get_caller_has_rw_locked` -/
def getCallerHasRw (env : Env) (uid : ℕ) : Bool :=
  env.config.derive = .none || env.appidWithRw.contains (multiuserGetAppId uid)

/-- Names at the root that nobody may use. -/
def blockedNames : List Name := [text "autorun.inf", text ".android_secure", text "android_secure"]

/-- `check_caller_access_to_name`; `write` says that the mode contains `W_OK`. -/
def checkCallerAccessToName (env : Env) (uid : ℕ) (parent : Derived) (name : Name)
    (write hasRw : Bool) : Bool :=
  if parent.perm = .root ∧ blockedNames.any (icaseEq name) then false
  else if env.config.derive = .none then true
  else if uid = 0 then true
  else if write then uid = parent.uid || hasRw
  else true

/-! ### Requests -/

/-- The codes of failed requests. -/
inductive Errno
  | enoent | eacces | enomem | code (e : ℕ)
  deriving DecidableEq, Repr

/-- What is answered: nothing, an error, success, or an entry.  With the entry stands the path
that was found for it. -/
inductive Reply
  | noReply
  | error (e : Errno)
  | success
  | entry (nodeid generation : ℕ) (path : Name)
  deriving DecidableEq, Repr

/-- The requests of the kernel that change nodes. -/
inductive Request
  | lookup (nodeid : ℕ) (name : Name)
  | mknod (nodeid : ℕ) (name : Name)
  | mkdir (nodeid : ℕ) (name : Name)
  | unlink (nodeid : ℕ) (name : Name)
  | rmdir (nodeid : ℕ) (name : Name)
  | rename (nodeid newdir : ℕ) (oldName newName : Name)
  | forget (nodeid nlookup : ℕ)
  deriving DecidableEq, Repr

/-- What the system answers while a request is handled.  `call` is the result of the system call
for the request, `touch` that for the file `.nomedia`, and `lstat` that of `fuse_reply_entry`;
`written` says that the reply could be written. -/
structure World where
  uid : ℕ
  dir : Dir
  call : Option ℕ
  touch : Bool
  lstat : Option ℕ
  alloc : Alloc
  written : Bool
  deriving DecidableEq, Repr

namespace Fuse

/-- The first part of the handlers for a name in a directory: the path and the actual name. -/
def findChild (env : Env) (s : Fuse) (nodeid : ℕ) (name : Name) (write : Bool) (w : World) :
    Option (Except Errno (Name × Name)) := do
  let path ← s.nodePath env nodeid
  match path with
  | none => some (.error .enoent)
  | some path =>
    match findFileWithin path name true w.dir with
    | none => some (.error .enoent)
    | some found =>
      let p ← s.load nodeid
      if checkCallerAccessToName env w.uid p.derived name write
        (write && getCallerHasRw env w.uid) then some (.ok found)
      else some (.error .eacces)

/-- `fuse_reply_entry` -/
def fuseReplyEntry (env : Env) (s : Fuse) (parent : ℕ) (name : Name) (found : Name × Name)
    (w : World) : Option (Fuse × Reply) :=
  match w.lstat with
  | some e => some (s, .error (.code e))
  | none => do
    let (s, a) ← s.acquireOrCreateChild env parent name found.2 w.alloc
    if a = 0 then some (s, .error .enomem)
    else
      let n ← s.load a
      some (s, .entry a n.gen found.1)

/-- The handlers that end with an entry; `call` is what they do with the file before. -/
def handleEntry (env : Env) (s : Fuse) (nodeid : ℕ) (name : Name) (write : Bool)
    (call : Derived → Option Errno) (w : World) : Option (Fuse × Reply) := do
  let found ← s.findChild env nodeid name write w
  match found with
  | .error e => some (s, .error e)
  | .ok found =>
    let p ← s.load nodeid
    match call p.derived with
    | some e => some (s, .error e)
    | none => s.fuseReplyEntry env nodeid name found w

/-- `handle_lookup` -/
def handleLookup (env : Env) (s : Fuse) (nodeid : ℕ) (name : Name) (w : World) :
    Option (Fuse × Reply) :=
  s.handleEntry env nodeid name false (fun _ => none) w

/-- `handle_mknod` -/
def handleMknod (env : Env) (s : Fuse) (nodeid : ℕ) (name : Name) (w : World) :
    Option (Fuse × Reply) :=
  s.handleEntry env nodeid name true (fun _ => w.call.map .code) w

/-- `/Android/data` and `/Android/obb` also get a file `.nomedia`. -/
def handleMkdir (env : Env) (s : Fuse) (nodeid : ℕ) (name : Name) (w : World) :
    Option (Fuse × Reply) :=
  s.handleEntry env nodeid name true (fun parent =>
    match w.call with
    | some e => some (.code e)
    | none =>
      if parent.perm = .android ∧ (icaseEq name (text "data") ∨ icaseEq name (text "obb")) ∧
        ¬ w.touch then some .enoent
      else none) w

/-- `handle_unlink` and `handle_rmdir`: the nodes stay as they are. -/
def handleRemove (env : Env) (s : Fuse) (nodeid : ℕ) (name : Name) (w : World) :
    Option (Fuse × Reply) := do
  let found ← s.findChild env nodeid name true w
  match found with
  | .error e => some (s, .error e)
  | .ok _ =>
    match w.call with
    | some e => some (s, .error (.code e))
    | none => some (s, .success)

/-- `handle_unlink` -/
def handleUnlink : Env → Fuse → ℕ → Name → World → Option (Fuse × Reply) := handleRemove

/-- `handle_rmdir` -/
def handleRmdir : Env → Fuse → ℕ → Name → World → Option (Fuse × Reply) := handleRemove

/-- The first part of `handle_rename`, up to the label `lookup_error`: the path of the new parent
and the node. -/
def findRenamed (env : Env) (s : Fuse) (nodeid newdir : ℕ) (oldName newName : Name)
    (w : World) : Option (Except Errno (Name × ℕ)) := do
  let oldPath ← s.nodePath env nodeid
  let newPath ← s.nodePath env newdir
  match oldPath, newPath with
  | some _, some newPath =>
    let p ← s.load nodeid
    let q ← s.load newdir
    let hasRw := getCallerHasRw env w.uid
    if ¬ checkCallerAccessToName env w.uid p.derived oldName true hasRw then
      some (.error .eacces)
    else if ¬ checkCallerAccessToName env w.uid q.derived newName true hasRw then
      some (.error .eacces)
    else
      let child ← s.lookupChildByName nodeid oldName
      if child = 0 then some (.error .enoent)
      else
        let path ← s.nodePath env child
        match path with
        | none => some (.error .enoent)
        | some _ => some (.ok (newPath, child))
  | _, _ => some (.error .enoent)

/-- `handle_rename` after `rename` has succeeded. -/
def moveNode (s : Fuse) (child newdir : ℕ) (newName actual : Name) (m : Alloc) :
    Option (Fuse × Reply) := do
  let (s, renamed) ← s.renameNode child newName actual m
  if renamed then
    let s ← s.removeNodeFromParent child
    let s ← s.addNodeToParent child newdir
    let s ← s.releaseNode child
    some (s, .success)
  else
    let s ← s.releaseNode child
    some (s, .error .enomem)

/-- `handle_rename` -/
def handleRename (env : Env) (s : Fuse) (nodeid newdir : ℕ) (oldName newName : Name) (w : World) :
    Option (Fuse × Reply) := do
  let found ← s.findRenamed env nodeid newdir oldName newName w
  match found with
  | .error e => some (s, .error e)
  | .ok (newPath, child) =>
    let s ← s.acquireNode child
    let search := nodeid ≠ newdir || !icaseEq oldName newName
    match findFileWithin newPath newName search w.dir with
    | none =>
      let s ← s.releaseNode child
      some (s, .error .enoent)
    | some (_, actual) =>
      match w.call with
      | some e =>
        let s ← s.releaseNode child
        some (s, .error (.code e))
      | none => s.moveNode child newdir newName actual w.alloc

/-- The loop of `handle_forget` -/
def handleForget (s : Fuse) (nodeid : ℕ) : ℕ → Option Fuse
  | 0 => some s
  | n + 1 => do
    let s ← s.releaseNode nodeid
    handleForget s nodeid n

/-- `handle_fuse_request` -/
def handleFuseRequest (env : Env) (s : Fuse) (w : World) : Request → Option (Fuse × Reply)
  | .lookup nodeid name => s.handleLookup env nodeid name w
  | .mknod nodeid name => s.handleMknod env nodeid name w
  | .mkdir nodeid name => s.handleMkdir env nodeid name w
  | .unlink nodeid name => handleUnlink env s nodeid name w
  | .rmdir nodeid name => handleRmdir env s nodeid name w
  | .rename nodeid newdir oldName newName => s.handleRename env nodeid newdir oldName newName w
  | .forget nodeid n => (s.handleForget nodeid n).map fun s => (s, .noReply)

end Fuse

/-! ### The daemon and the kernel -/

/-- The nodes, and the references that the kernel has to them. -/
structure System where
  fuse : Fuse
  held : ℕ → ℕ

/-- After `fuse_init`. -/
def fuseInit (env : Env) : System :=
  ⟨⟨fun _ => ⟨2, 0, rootDerived env.config, 0, 0, 0, env.sourcePath, none⟩, [rootId], 0⟩,
    fun _ => 0⟩

/-- The references of the kernel after a request. -/
def kernelRefs (held : ℕ → ℕ) (written : Bool) : Request → Reply → ℕ → ℕ
  | _, .entry a _ _ => if written then Function.update held a (held a + 1) else held
  | .forget a n, _ => Function.update held a (held a - n)
  | _, _ => held

/-- A request is handled. -/
def step (env : Env) (s : System) (e : Request × World) : Option System :=
  (s.fuse.handleFuseRequest env e.2 e.1).map fun r =>
    ⟨r.1, kernelRefs s.held e.2.written e.1 r.2⟩

end Sdcard
