import IorDfs.Engine

/-!
# Session Establishment and Teardown

`DFS_Init` (lines 297-355) connects rank 0 to the pool and opens (or creates) the
container, replicates both handles to every rank with `HandleDistribute`
(149-200), and mounts the namespace everywhere. `DFS_Finalize` (357-386)
unmounts and closes on every rank, lets rank 0 destroy the container when asked,
and broadcasts rank 0's status so that every rank decides the same way.

`HandleDistribute` is the two-phase broadcast of the design: the size of the
serialised handle first, so that every rank can allocate its buffer, then the
buffer. `MPI_CHECK` is not modelled: the collectives are taken to succeed.
`DER_NONEXIST` comes from the DAOS headers, which are not part of the source, so
it is a parameter.
-/

namespace IorDfs

/-- `struct dfs_options`: the `dfs.*` options of the command line. -/
structure DfsOptions where
  pool : Option String
  svcl : Option String
  group : Option String
  cont : Option String
  destroy : Bool

/-- `HandleDistribute(handle, type)`. Rank 0 asks for the size of the global handle and
broadcasts it; every rank allocates a buffer of that size; rank 0 fills it and
broadcasts it; every other rank turns it into a local handle. -/
def handleDistribute (rank : Nat) (type : HandleType) : Prog Unit :=
  if type = .arrayHandle then .abort .assertion
  else
    Prog.bind (if rank = 0 then
        .call (.local2global type) fun r =>
          dcheck r.rc "Failed to get global handle size" (.done (r.out : Int))
      else .done 0) fun len =>
    .coll (.bcast .world 0) len fun len =>
    .call (.malloc len) fun m =>
    if m.rc ≠ 0 then .abort (.err "Failed to allocate global handle buffer")
    else
      Prog.bind (if rank = 0 then
          .call (.local2global type) fun r =>
            dcheck r.rc "Failed to create global handle" (.done (r.out : Int))
        else .done 0) fun buf =>
      .coll (.bcast .world 0) buf fun _ =>
      if rank ≠ 0 then
        .call (.global2local type) fun r => dcheck r.rc "Failed to get local handle" (.done ())
      else .done ()

/-- Rank 0's part of `DFS_Init` (lines 307-348): parse the identifiers, connect to the
pool of the server group `group`, open the container, creating it first when it does not
exist. -/
def connectPool (derNonexist : Int) (pool svcl cont : String) (group : Option String) :
    Prog Unit :=
  .call (.uuidParse pool) fun r => dcheck r.rc ("Failed to parse \x27Pool uuid\x27: " ++ pool) <|
  .call (.uuidParse cont) fun r => dcheck r.rc ("Failed to parse \x27Cont uuid\x27: " ++ cont) <|
  .call (.rankListParse svcl) fun r =>
  if r.rc ≠ 0 then .abort (.err "Failed to allocate svcl")
  else
    .call (.poolConnect group) fun r => dcheck r.rc "Failed to connect to pool" <|
    .call .contOpen fun r =>
      Prog.bind (if r.rc = -derNonexist then
          .call .contCreate fun c =>
            if c.rc = 0 then .call .contOpen fun r' => .done r'.rc else .done c.rc
        else .done r.rc) fun rc =>
      dcheck rc "Failed to create container" (.done ())

/-- `DFS_Init`. -/
def dfsInit (rank : Nat) (derNonexist : Int) (o : DfsOptions) : Prog Unit :=
  match o.pool, o.svcl, o.cont with
  | some pool, some svcl, some cont =>
    .call .daosInit fun r => dcheck r.rc "Failed to initialize daos" <|
      Prog.bind (if rank = 0 then connectPool derNonexist pool svcl cont o.group
          else .done ()) fun _ =>
      (handleDistribute rank .poolHandle).bind fun _ =>
      (handleDistribute rank .contHandle).bind fun _ =>
      .call .dfsMount fun r => dcheck r.rc "Failed to mount DFS namespace" (.done ())
  | _, _, _ => .abort (.err "Invalid pool or container options\n")

/-- The tail of `DFS_Finalize` after the broadcast (lines 378-385): a nonzero status
received from rank 0 is checked, the pool is disconnected (its status is not
read; the same `rc` is checked again), and the DAOS runtime is finalised. -/
def finalizeTail (rc : Int) : Prog Unit :=
  let rest : Prog Unit :=
    .call .poolDisconnect fun _ =>
    dcheck rc "Failed to disconnect from pool" <|
    .call .daosFini fun r => dcheck r.rc "Failed to finalize DAOS" (.done ())
  if rc ≠ 0 then dcheck rc "Failed to destroy container" rest else rest

/-- `DFS_Finalize`: unmount and close on every rank; rank 0 destroys the container
when `dfs.destroy` is set; then rank 0's status is broadcast to all. -/
def dfsFinalize (rank : Nat) (o : DfsOptions) : Prog Unit :=
  .call .dfsUmount fun r => dcheck r.rc "Failed to umount DFS namespace" <|
  .call .contClose fun r => dcheck r.rc "Failed to close container" <|
  Prog.bind (if rank = 0 ∧ o.destroy then
      .call (.uuidParse (o.cont.getD "")) fun _ => .call .contDestroy fun d => .done d.rc
    else .done r.rc) fun rc =>
  .coll (.bcast .world 0) rc finalizeTail

end IorDfs
