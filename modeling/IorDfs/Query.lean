import IorDfs.Namespace

/-!
# `DFS_Access`, `DFS_Stat` and the Leaf Operations Against a Namespace

`DFS_Access` and `DFS_Stat` (lines 710-775) both resolve the path, look the parent up,
`dfs_stat` the leaf and return `0` or `-1`. They differ in three places: the open flag
of the lookup (`O_RDWR` and `O_RDONLY`), a missing leaf (`DFS_Stat` asserts it,
`DFS_Access` stats the parent itself) and a `"."` leaf (`DFS_Access` stats the parent
itself, `DFS_Stat` asks the parent for an entry named `"."`).

To compare what they return, one worker runs alone against an engine
(`Prog.runWith`). The engine answers from a `NamespaceState`: the objects that exist,
each named by its entry names from the root. A directory holds no entry named `.` or
`..`, which is what makes the `"."` leaf differ. `answer` reads a looked-up path with
`.` and `..` taken lexically; `walkAnswer` walks it entry by entry, as an engine that
resolves paths in its directories does. They answer alike on paths free of `.` and `..`,
and §5 and §6 hold for both there.

## Results

- `dfsAccess_runWith_eq_dfsStat`: for every engine whose lookups ignore the open flag,
  and every path whose leaf is neither missing nor `"."`, the two have one outcome.
- `dfsStat_no_leaf` and `dfsAccess_root`: on `"/"`, `DFS_Stat` fails its assertion and
  `DFS_Access` returns `0` in every namespace state. `dfsStat_dot_leaf` and
  `dfsAccess_dot_leaf`: on a `"."` leaf, `DFS_Stat` returns `-1` in every namespace
  state and `DFS_Access` reports whether the parent exists.
- `dfsAccess_iff_dfsStat`: elsewhere they agree in every namespace state, and, when a
  missing object is reported with a negative status, both succeed exactly when the
  parent has an entry named by the leaf.
- `dfsStat_names_path`: on the paths `parse_filename` reads right, free of `.` and `..`,
  that entry is the object the path names from the working directory, for both engines.
- `leafOp_acts_on_path`: on the same paths, `DFS_Open`, `DFS_Delete`, `DFS_Mkdir`,
  `DFS_Rmdir` and `DFS_Stat` issue their call on that object, exactly when its
  directory exists.
- `dfsGetFileSize_reads_named_object`: `DFS_GetFileSize` reads an absolute path from the
  root, which is that object again; a relative one it reads from the root too
  (`getFileSize_lookup_unresolved`).

The paths of §5 include relative ones whose directory does not start with `.`; for
those `parse_filename` writes one byte past its `new_dir` block (`newDirBuf`, Path §3).
The results here read the string it builds, so they take that write to be benign.
-/

namespace IorDfs

/-! ## §1 Running the two operations -/

section RunWith

variable (answer : Call → Reply) {cwd : Option (List Char)} {path dirName : List Char}

/-- `DFS_Stat` run alone on a path with a leaf: the lookup's status when `DERR` takes
it, else the stat's, through `out:`. -/
theorem dfsStat_runWith {name : List Char}
    (hp : parseFilename cwd path = .ok (dirName, some name)) :
    (dfsStat cwd path).runWith answer =
      if (answer (.lookup dirName .rdonly)).rc < 0 then
        .returned (statusOf (answer (.lookup dirName .rdonly)).rc)
      else .returned (statusOf
        (answer (.stat (parentOf dirName (answer (.lookup dirName .rdonly))) (some name))).rc) := by
  simp only [dfsStat, leafOp, hp, Prog.runWith, derr]
  split_ifs <;> rfl

/-- `DFS_Access` run alone: as `DFS_Stat`, but with an `O_RDWR` lookup and a `"."` leaf
replaced by NULL. -/
theorem dfsAccess_runWith {name : Option (List Char)}
    (hp : parseFilename cwd path = .ok (dirName, name)) :
    (dfsAccess cwd path).runWith answer =
      if (answer (.lookup dirName .rdwr)).rc < 0 then
        .returned (statusOf (answer (.lookup dirName .rdwr)).rc)
      else .returned (statusOf (answer (.stat (parentOf dirName (answer (.lookup dirName .rdwr)))
        (if name = some ['.'] then none else name))).rc) := by
  simp only [dfsAccess, hp, Prog.runWith, derr]
  split_ifs <;> rfl

/-- `DFS_Stat` asserts the leaf before any call: on `"/"` it ends the run. -/
theorem dfsStat_no_leaf (hp : parseFilename cwd path = .ok (dirName, none)) :
    (dfsStat cwd path).runWith answer = .aborted .assertion := by
  simp only [dfsStat, leafOp, hp, Prog.runWith]

/-- Off the missing and the `"."` leaf, `DFS_Access` and `DFS_Stat` issue the same calls
but for the lookup's open flag, so an engine that ignores the flag gives them one
outcome. -/
theorem dfsAccess_runWith_eq_dfsStat
    (hflag : ∀ p, answer (.lookup p .rdwr) = answer (.lookup p .rdonly))
    (hleaf : ∀ d, parseFilename cwd path ≠ .ok (d, none) ∧
      parseFilename cwd path ≠ .ok (d, some ['.'])) :
    (dfsAccess cwd path).runWith answer = (dfsStat cwd path).runWith answer := by
  rcases hp : parseFilename cwd path with rc | ⟨d, _ | n⟩
  · simp only [dfsAccess, dfsStat, leafOp, hp, Prog.runWith]
  · exact absurd hp (hleaf d).1
  · have hn : n ≠ ['.'] := fun h => (hleaf d).2 (h ▸ hp)
    rw [dfsAccess_runWith answer hp, dfsStat_runWith answer hp, hflag]
    simp only [Option.some.injEq, hn, if_false]

end RunWith

/-! ## §2 The namespace -/

/-- A name a directory entry can have: non-empty, without `/`, and neither `.` nor `..`,
which a directory does not hold as entries. -/
def ValidName (c : List Char) : Prop :=
  c ≠ [] ∧ '/' ∉ c ∧ c ≠ ['.'] ∧ c ≠ ['.', '.']

instance validNameDecidable : DecidablePred ValidName :=
  fun c => inferInstanceAs (Decidable (c ≠ [] ∧ '/' ∉ c ∧ c ≠ ['.'] ∧ c ≠ ['.', '.']))

/-- A state of the engine's namespace: the objects that exist, each named by the entry
names leading to it from the root, which is `[]`. The root exists, so does the
directory holding each object, and every entry name is valid. -/
structure NamespaceState where
  objects : List (List (List Char))
  root_mem : [] ∈ objects
  parent_mem : ∀ p ∈ objects, p.dropLast ∈ objects
  names_valid : ∀ p ∈ objects, ∀ c ∈ p, ValidName c

namespace NamespaceState

variable (ns : NamespaceState) (enoent : Int)

/-- The reply to a query for object `p`: success, or `enoent` when it does not exist. -/
def found (p : List (List Char)) : Reply :=
  if p ∈ ns.objects then ⟨0, 0⟩ else ⟨enoent, 0⟩

/-- How the engine answers in state `ns`, `enoent` being its status for a missing
object. `dfs_lookup` finds the object its path names, read from the root with `.` and
`..` taken lexically (`resolve`); the open flag does not matter, since `DFS_Init` mounts
the container `O_RDWR` (line 353). `dfs_stat` finds the parent itself for a NULL name and
the parent's entry `name` otherwise, a NULL parent being the root. Every other call
succeeds. An engine that walks its paths entry by entry is `walkAnswer` below; the two
answer alike on paths without `.` and `..` (`walkAnswer_lookup`). -/
def answer : Call → Reply
  | .lookup path _ => ns.found enoent (resolve [] path)
  | .stat parent name => ns.found enoent ((parent.map (resolve [])).getD [] ++ name.toList)
  | _ => ⟨0, 0⟩

theorem answer_lookup_flag (p : List Char) :
    ns.answer enoent (.lookup p .rdwr) = ns.answer enoent (.lookup p .rdonly) := rfl

@[simp] theorem found_rc (p : List (List Char)) :
    (ns.found enoent p).rc = if p ∈ ns.objects then 0 else enoent := by
  unfold found; split_ifs <;> rfl

/-- No object has an entry `"."`. -/
theorem dot_not_mem (p : List (List Char)) : p ++ [['.']] ∉ ns.objects := fun h =>
  (ns.names_valid _ h ['.'] (List.mem_append_right _ (List.mem_singleton_self _))).2.2.1 rfl

/-- An object that exists sits in a directory that exists. -/
theorem mem_of_entry_mem {p : List (List Char)} {n : List Char} (h : p ++ [n] ∈ ns.objects) :
    p ∈ ns.objects := by
  simpa using ns.parent_mem _ h

/-- A lookup that walks its path from the root, one entry at a time: it finds the object
when each prefix of the path's components is an object, that is an entry of the
directory reached before it. `.` and `..` are entry names here, which no directory
holds. -/
def walk (path : List Char) : Reply :=
  if ∀ n ≤ (components path).length, (components path).take n ∈ ns.objects then ⟨0, 0⟩
  else ⟨enoent, 0⟩

/-- The engine of a namespace state that walks its paths: `dfs_lookup` by `walk`, and
`dfs_stat` finds the entry `name` of the directory the parent's walk reached. -/
def walkAnswer : Call → Reply
  | .lookup path _ => ns.walk enoent path
  | .stat parent name => ns.found enoent ((parent.map components).getD [] ++ name.toList)
  | _ => ⟨0, 0⟩

/-- Every prefix of an object is an object. -/
theorem take_mem {p : List (List Char)} (hp : p ∈ ns.objects) (n : Nat) :
    p.take n ∈ ns.objects := by
  induction p using List.reverseRecOn generalizing n with
  | nil => simpa using ns.root_mem
  | append_singleton q c ih =>
    by_cases hn : n ≤ q.length
    · rw [List.take_append_of_le_length hn]
      exact ih (ns.mem_of_entry_mem hp) n
    · rwa [List.take_of_length_le (by simp; omega)]

/-- The walk reaches exactly the objects: the directories on the way exist by prefix
closure. -/
theorem walk_eq_found (path : List Char) :
    ns.walk enoent path = ns.found enoent (components path) := by
  unfold walk found
  by_cases hp : components path ∈ ns.objects
  · rw [if_pos fun n _ => ns.take_mem hp n, if_pos hp]
  · rw [if_neg fun h => hp (by simpa using h _ le_rfl), if_neg hp]

/-- On a path free of `.` and `..` the walking engine and `answer` look up alike. -/
theorem walkAnswer_lookup {p : List Char} (hp : DotFree p) (f : OFlag) :
    ns.walkAnswer enoent (.lookup p f) = ns.answer enoent (.lookup p f) := by
  simp only [walkAnswer, answer, walk_eq_found, resolve_of_dotFree hp, ite_self, List.nil_append]

/-- And they stat alike in a parent free of `.` and `..`, or in the root. -/
theorem walkAnswer_stat {parent : Option (List Char)} (hp : ∀ p ∈ parent, DotFree p)
    (name : Option (List Char)) :
    ns.walkAnswer enoent (.stat parent name) = ns.answer enoent (.stat parent name) := by
  cases parent with
  | none => rfl
  | some p =>
    simp only [walkAnswer, answer, Option.map_some', Option.getD_some,
      resolve_of_dotFree (hp p rfl), ite_self, List.nil_append]

end NamespaceState

/-! ## §3 Where the two differ -/

section Differ

variable (ns : NamespaceState) {cwd : Option (List Char)} {path dirName : List Char}

/-- `DFS_Access("/")` stats the root, which always exists. -/
theorem dfsAccess_root (enoent : Int) :
    (dfsAccess cwd ['/']).runWith (ns.answer enoent) = .returned 0 := by
  have hroot : resolve [] ['/'] = [] := rfl
  rw [dfsAccess_runWith _ (parseFilename_root cwd)]
  simp [NamespaceState.answer, hroot, ns.root_mem, parentOf, statusOf]

/-- A `"."` leaf is never found by `DFS_Stat`: it asks for an entry named `"."`. -/
theorem dfsStat_dot_leaf {enoent : Int} (he : enoent ≠ 0)
    (hp : parseFilename cwd path = .ok (dirName, some ['.'])) :
    (dfsStat cwd path).runWith (ns.answer enoent) = .returned (-1) := by
  rw [dfsStat_runWith _ hp]
  have hdot : ∀ p, p ++ [['.']] ∉ ns.objects := ns.dot_not_mem
  have hroot : [['.']] ∉ ns.objects := hdot []
  by_cases hd : resolve [] dirName ∈ ns.objects <;>
    simp [NamespaceState.answer, parentOf, statusOf, hd, hdot, hroot, he]

/-- With negative statuses for missing objects, `DFS_Access` on a `"."` leaf returns `0`
exactly when the parent exists. -/
theorem dfsAccess_dot_leaf {enoent : Int} (he : enoent < 0)
    (hp : parseFilename cwd path = .ok (dirName, some ['.'])) :
    (dfsAccess cwd path).runWith (ns.answer enoent) = .returned 0 ↔
      resolve [] dirName ∈ ns.objects := by
  rw [dfsAccess_runWith _ hp]
  by_cases hd : resolve [] dirName ∈ ns.objects <;>
    simp [NamespaceState.answer, parentOf, statusOf, hd, he, he.ne]

/-- The namespace holding the root and one directory `/a`. -/
def rootWithA : NamespaceState :=
  ⟨[[], [['a']]], by decide, by decide, by decide⟩

/-- With `/a` a directory: `DFS_Access("/")` returns `0` and `DFS_Stat("/")` fails its
assertion; `DFS_Access("/a/.")` returns `0` and `DFS_Stat("/a/.")` returns `-1`; and
`"/a/.."`, which names the existing root, is found by neither. -/
theorem dfsAccess_dfsStat_disagree :
    (dfsAccess (some ['/']) ['/']).runWith (rootWithA.answer (-2)) = .returned 0 ∧
    (dfsStat (some ['/']) ['/']).runWith (rootWithA.answer (-2)) = .aborted .assertion ∧
    (dfsAccess (some ['/']) "/a/.".toList).runWith (rootWithA.answer (-2)) = .returned 0 ∧
    (dfsStat (some ['/']) "/a/.".toList).runWith (rootWithA.answer (-2)) = .returned (-1) ∧
    resolve [] "/a/..".toList ∈ rootWithA.objects ∧
    (dfsAccess (some ['/']) "/a/..".toList).runWith (rootWithA.answer (-2)) = .returned (-1) ∧
    (dfsStat (some ['/']) "/a/..".toList).runWith (rootWithA.answer (-2)) = .returned (-1) := by
  have hdot : parseFilename (some ['/']) "/a/.".toList = .ok (['/', 'a'], some ['.']) := by decide
  refine ⟨dfsAccess_root _ _, dfsStat_no_leaf _ (parseFilename_root _),
    (dfsAccess_dot_leaf _ (by decide) hdot).mpr (by decide), dfsStat_dot_leaf _ (by decide) hdot,
    by decide, by decide, by decide⟩

end Differ

/-! ## §4 Where the two agree -/

/-- In every namespace state, off the missing and the `"."` leaf, `DFS_Access` returns `0`
exactly when `DFS_Stat` does; and when a missing object is reported with a negative
status, they do exactly when the directory the parsed parent names has an entry named
by the leaf. -/
theorem dfsAccess_iff_dfsStat (ns : NamespaceState) (enoent : Int) (cwd : Option (List Char))
    (path : List Char)
    (hleaf : ∀ d, parseFilename cwd path ≠ .ok (d, none) ∧
      parseFilename cwd path ≠ .ok (d, some ['.'])) :
    ((dfsAccess cwd path).runWith (ns.answer enoent) = .returned 0 ↔
      (dfsStat cwd path).runWith (ns.answer enoent) = .returned 0) ∧
    (enoent < 0 → ∀ d n, parseFilename cwd path = .ok (d, some n) →
      ((dfsStat cwd path).runWith (ns.answer enoent) = .returned 0 ↔
        resolve [] d ++ [n] ∈ ns.objects)) := by
  refine ⟨by rw [dfsAccess_runWith_eq_dfsStat _ (ns.answer_lookup_flag enoent) hleaf], ?_⟩
  intro he d n hp
  rw [dfsStat_runWith _ hp]
  by_cases hd : resolve [] d ∈ ns.objects
  · by_cases hn : resolve [] d ++ [n] ∈ ns.objects <;>
      simp [NamespaceState.answer, parentOf, statusOf, hd, hn, he.ne]
  · have hn : resolve [] d ++ [n] ∉ ns.objects := mt ns.mem_of_entry_mem hd
    simp [NamespaceState.answer, statusOf, hd, hn, he, he.ne]

theorem dfsAccess_iff_dfsStat_file_a :
    (dfsStat (some ['/']) "/a".toList).runWith (rootWithA.answer (-2)) = .returned 0 ∧
      (dfsAccess (some ['/']) "/a".toList).runWith (rootWithA.answer (-2)) = .returned 0 := by
  have hp : parseFilename (some ['/']) "/a".toList = .ok (['/'], some ['a']) := by decide
  have h := dfsAccess_iff_dfsStat rootWithA (-2) (some ['/']) "/a".toList
    (fun d => ⟨by rw [hp]; simp, by rw [hp]; simp⟩)
  have hs := (h.2 (by decide) _ _ hp).mpr (by decide)
  exact ⟨hs, h.1.mpr hs⟩

/-! ## §5 What the path names

On the paths `parse_filename` gets right (`parseFilename_resolves`), with a leaf other
than `"."` and `".."`, the two operations are `stat` of the path: they succeed exactly
when the object the path names, read from the working directory, exists. -/

/-- A path `parse_filename` reads right and whose leaf is a name: it has a character
other than `/`, its directory is `"."` or does not start with `.` followed by a character
other than `/`, and its leaf is neither `"."` nor `".."`. A relative directory that does
not start with `.` is built in a block one byte short (`newDirBuf_isSome_iff`): results
over these paths read the string `parse_filename` builds, taking that write as benign. -/
structure PlainPath (P : List Char) : Prop where
  has_name : ∃ c ∈ P, c ≠ '/'
  dot_dir : (dirname P).head? = some '.' → dirname P = ['.'] ∨ (dirname P).take 2 = ['.', '/']
  leaf_ne_dot : basename P ≠ ['.']
  leaf_ne_dotdot : basename P ≠ ['.', '.']

instance (P : List Char) : Decidable (PlainPath P) :=
  decidable_of_iff ((∃ c ∈ P, c ≠ '/') ∧
      ((dirname P).head? = some '.' → dirname P = ['.'] ∨ (dirname P).take 2 = ['.', '/']) ∧
      basename P ≠ ['.'] ∧ basename P ≠ ['.', '.'])
    ⟨fun ⟨a, b, c, d⟩ => ⟨a, b, c, d⟩, fun ⟨a, b, c, d⟩ => ⟨a, b, c, d⟩⟩

/-- On these paths `parse_filename` returns the path's `basename` as the leaf and a parent
that, with the leaf read in it, names what the path names. -/
theorem parseFilename_names_path {cwd P : List Char} (hcwd : cwd.head? = some '/')
    (hpath : PlainPath P) :
    ∃ parent, parseFilename (some cwd) P = .ok (parent, some (basename P)) ∧
      resolve [] parent ++ [basename P] = resolve (resolve [] cwd) P := by
  obtain ⟨d, n, hp, -, -, -, hres⟩ := parseFilename_resolves hcwd hpath.has_name hpath.dot_dir
  have hP1 : P ≠ ['/'] := by rintro rfl; simpa using hpath.has_name
  obtain rfl := Option.some.inj (parseFilename_leaf hP1 hp)
  exact ⟨d, hp, by rwa [descend_of_ne_dot ⟨hpath.leaf_ne_dot, hpath.leaf_ne_dotdot⟩] at hres⟩

/-- With a working directory and a `PlainPath` free of `.` and `..`, the parent
`parse_filename` returns is free of them too: it is the working directory, or the path's
directory read there or from the root. -/
theorem parseFilename_parent_dotFree {cwd P parent : List Char} {n : Option (List Char)}
    (hcwd : DotFree cwd) (hpath : PlainPath P) (hP : DotFree P)
    (hp : parseFilename (some cwd) P = .ok (parent, n)) : DotFree parent := by
  have hP1 : P ≠ ['/'] := by rintro rfl; simpa using hpath.has_name
  have hdir : ∀ c ∈ components (dirname P), dirname P ≠ ['.'] → c ≠ ['.'] ∧ c ≠ ['.', '.'] :=
    fun c hc hd => hP c ((mem_components_of_dirname hpath.has_name hc).resolve_left hd)
  simp only [parseFilename, hP1, if_false] at hp
  split_ifs at hp with hrel hd <;>
    simp only [Except.ok.injEq, Prod.mk.injEq] at hp <;> obtain ⟨rfl, -⟩ := hp
  · exact hcwd
  · by_cases hhd : (dirname P).head? = some '.'
    · -- a directory `./…` would start with the component `.`
      have hmem : ['.'] ∈ components (dirname P) := by
        rw [← List.take_append_drop 2 (dirname P), (hpath.dot_dir hhd).resolve_left hd,
          show ['.', '/'] ++ (dirname P).drop 2 = ['.'] ++ '/' :: (dirname P).drop 2 from rfl,
          components_append_slash, components_slash_free (by simp) (by simp)]
        exact List.mem_append_left _ (List.mem_singleton_self _)
      exact absurd rfl (hdir _ hmem hd).1
    · intro c hc
      rw [newDir, if_neg hhd, components_append_slash] at hc
      rcases List.mem_append.mp hc with hc | hc
      · exact hcwd c hc
      · exact hdir c hc hd
  · exact fun c hc => hdir c hc fun h => hrel (.inl (by rw [h]; rfl))

/-- Where `parse_filename` returns a parent free of `.` and `..`, `DFS_Stat` and
`DFS_Access` run alike against the engine that walks its paths and against `answer`. -/
theorem runWith_walkAnswer (ns : NamespaceState) (enoent : Int) {cwd : Option (List Char)}
    {P d : List Char} {name : Option (List Char)} (hp : parseFilename cwd P = .ok (d, name))
    (hd : DotFree d) :
    (dfsStat cwd P).runWith (ns.walkAnswer enoent) = (dfsStat cwd P).runWith (ns.answer enoent) ∧
      (dfsAccess cwd P).runWith (ns.walkAnswer enoent) =
        (dfsAccess cwd P).runWith (ns.answer enoent) := by
  have hparent : ∀ r, ∀ p ∈ parentOf d r, DotFree p := fun r p hp' => by
    unfold parentOf at hp'
    split at hp' <;> cases hp'
    exact hd
  refine ⟨?_, ?_⟩
  · cases name with
    | none => rw [dfsStat_no_leaf _ hp, dfsStat_no_leaf _ hp]
    | some n =>
      rw [dfsStat_runWith _ hp, dfsStat_runWith _ hp, ns.walkAnswer_lookup enoent hd,
        ns.walkAnswer_stat enoent (hparent _)]
  · rw [dfsAccess_runWith _ hp, dfsAccess_runWith _ hp, ns.walkAnswer_lookup enoent hd,
      ns.walkAnswer_stat enoent (hparent _)]

/-- In every namespace state whose missing objects are reported with a negative status,
for an absolute working directory and a `PlainPath`, both free of `.` and `..`: the
parent `parse_filename` returns is free of them, and with the leaf read in it names what
the path names from the working directory; against `answer` and against the engine
that walks its paths alike, `DFS_Stat` and `DFS_Access` return `0` exactly when that
object exists. -/
theorem dfsStat_names_path (ns : NamespaceState) {enoent : Int} (he : enoent < 0)
    {cwd P : List Char} (hcwd : cwd.head? = some '/') (hcwd' : DotFree cwd)
    (hpath : PlainPath P) (hP : DotFree P) :
    (∃ parent, parseFilename (some cwd) P = .ok (parent, some (basename P)) ∧ DotFree parent ∧
        resolve [] parent ++ [basename P] = resolve (resolve [] cwd) P) ∧
      ∀ E ∈ [ns.answer enoent, ns.walkAnswer enoent],
        ((dfsStat (some cwd) P).runWith E = .returned 0 ↔
          resolve (resolve [] cwd) P ∈ ns.objects) ∧
        ((dfsAccess (some cwd) P).runWith E = .returned 0 ↔
          resolve (resolve [] cwd) P ∈ ns.objects) := by
  obtain ⟨d, hp, hres⟩ := parseFilename_names_path hcwd hpath
  have hd := parseFilename_parent_dotFree hcwd' hpath hP hp
  rw [← hres]
  have hstat : (dfsStat (some cwd) P).runWith (ns.answer enoent) = .returned 0 ↔
      resolve [] d ++ [basename P] ∈ ns.objects := by
    rw [dfsStat_runWith _ hp]
    by_cases hdm : resolve [] d ∈ ns.objects
    · by_cases hn : resolve [] d ++ [basename P] ∈ ns.objects <;>
        simp [NamespaceState.answer, parentOf, statusOf, hdm, hn, he.ne]
    · have hn : resolve [] d ++ [basename P] ∉ ns.objects := mt ns.mem_of_entry_mem hdm
      simp [NamespaceState.answer, statusOf, hdm, hn, he, he.ne]
  have haccess : (dfsAccess (some cwd) P).runWith (ns.answer enoent) = .returned 0 ↔
      resolve [] d ++ [basename P] ∈ ns.objects := by
    rw [dfsAccess_runWith_eq_dfsStat _ (ns.answer_lookup_flag enoent), hstat]
    intro d'
    constructor <;> rw [hp] <;> simp [hpath.leaf_ne_dot]
  refine ⟨⟨d, hp, hd, rfl⟩, fun E hE => ?_⟩
  obtain rfl | rfl : E = ns.answer enoent ∨ E = ns.walkAnswer enoent := by simpa using hE
  · exact ⟨hstat, haccess⟩
  · obtain ⟨hs, ha⟩ := runWith_walkAnswer ns enoent hp hd
    rw [hs, ha]
    exact ⟨hstat, haccess⟩

theorem dfsStat_names_path_home :
    ((dfsStat (some "/home".toList) "d/f".toList).runWith (rootWithA.walkAnswer (-2)) =
        .returned 0 ↔ resolve (resolve [] "/home".toList) "d/f".toList ∈ rootWithA.objects) ∧
      ((dfsAccess (some "/home".toList) "d/f".toList).runWith (rootWithA.walkAnswer (-2)) =
          .returned 0 ↔ resolve (resolve [] "/home".toList) "d/f".toList ∈ rootWithA.objects) :=
  (dfsStat_names_path rootWithA (by decide) (by decide) (by decide) (by decide) (by decide)).2 _
    (List.mem_cons_of_mem _ (List.mem_singleton_self _))

/-! ## §6 What the leaf operations act on

`DFS_Open`, `DFS_Delete`, `DFS_Mkdir`, `DFS_Rmdir` and `DFS_Stat` share one body,
`leafOp`. Read against a namespace state on the paths of §5, each issues its namespace
call on the object the path names, and exactly when that object's directory exists. -/

/-- For an absolute working directory and a `PlainPath`, both free of `.` and `..`, in
every run of a `leafOp` that returns, its lookup answered from a namespace state that
reports a missing object with a negative status, by `answer` or by the engine that walks
its paths: the parent `parse_filename` returns, with the path's leaf, names the object
the path names; when that parent exists the operation is issued on it with the leaf and
its status and object are returned, and otherwise `DERR` takes the lookup's status and
nothing else is called. -/
theorem leafOp_acts_on_path (ns : NamespaceState) {enoent : Int} (he : enoent < 0)
    {E : Call → Reply} (hE : E ∈ [ns.answer enoent, ns.walkAnswer enoent])
    {β : Type} {flag : OFlag} {op : Option (List Char) → List Char → Call}
    {fin : Int → Option Nat → β} {cwd P : List Char} (hcwd : cwd.head? = some '/')
    (hcwd' : DotFree cwd) (hpath : PlainPath P) (hP : DotFree P) {t : List Ev} {b : β}
    (h : WorkerRun (.run (leafOp flag op fin (some cwd) P)) t (.run (.done b)))
    (hlook : ∀ p f r, Ev.call (.lookup p f) r ∈ t → r = E (.lookup p f)) :
    ∃ d, resolve [] d ++ [basename P] = resolve (resolve [] cwd) P ∧
      (resolve [] d ∈ ns.objects → ∃ o,
        t = [.call (.lookup d flag) ⟨0, 0⟩, .call (op (some d) (basename P)) o] ∧
          b = fin o.rc o.obj) ∧
      (resolve [] d ∉ ns.objects →
        t = [.call (.lookup d flag) ⟨enoent, 0⟩] ∧ b = fin enoent none) := by
  obtain ⟨d, hp, hres⟩ := parseFilename_names_path hcwd hpath
  have hE' : E (.lookup d flag) = ns.found enoent (resolve [] d) := by
    obtain rfl | rfl : E = ns.answer enoent ∨ E = ns.walkAnswer enoent := by simpa using hE
    · rfl
    · exact ns.walkAnswer_lookup enoent (parseFilename_parent_dotFree hcwd' hpath hP hp) flag
  refine ⟨d, hres, ?_⟩
  rcases leafOp_run h with ⟨rc, hrc, -⟩ | ⟨d', n, r, hp', hr⟩
  · rw [hp] at hrc
    cases hrc
  rw [hp] at hp'
  simp only [Except.ok.injEq, Prod.mk.injEq, Option.some.injEq] at hp'
  obtain ⟨rfl, rfl⟩ := hp'
  have hr' : r = ns.found enoent (resolve [] d) :=
    (hlook d flag r (by rcases hr with ⟨-, rfl, -⟩ | ⟨-, o, rfl, -⟩ <;> simp)).trans hE'
  subst hr'
  by_cases hd : resolve [] d ∈ ns.objects
  · rw [NamespaceState.found, if_pos hd] at hr
    rcases hr with ⟨h0, -⟩ | ⟨-, o, rfl, rfl⟩
    · exact absurd h0 (lt_irrefl 0)
    · exact ⟨fun _ => ⟨o, rfl, rfl⟩, fun hn => absurd hd hn⟩
  · rw [NamespaceState.found, if_neg hd] at hr
    rcases hr with ⟨-, rfl, rfl⟩ | ⟨h0, -⟩
    · exact ⟨fun hn => absurd hn hd, fun _ => ⟨rfl, rfl⟩⟩
    · exact absurd h0 (not_le.mpr he)

theorem dfsMkdir_acts_on_path_a_b :
    ∃ d, resolve [] d ++ [basename "/a/b".toList] = resolve (resolve [] ['/']) "/a/b".toList ∧
      ∃ o, [Ev.call (.lookup ['/', 'a'] .rdwr) ⟨0, 0⟩, .call (.mkdir (some ['/', 'a']) ['b']) ⟨0, 0⟩] =
        [.call (.lookup d .rdwr) ⟨0, 0⟩, .call (.mkdir (some d) (basename "/a/b".toList)) o] := by
  have hrun : WorkerRun (.run (dfsMkdir (some ['/']) "/a/b".toList))
      [.call (.lookup ['/', 'a'] .rdwr) ⟨0, 0⟩, .call (.mkdir (some ['/', 'a']) ['b']) ⟨0, 0⟩]
      (.run (.done 0)) :=
    .cons (.call _) (.cons (.call _) (.refl _))
  obtain ⟨d, hres, hin, hout⟩ := leafOp_acts_on_path rootWithA (show (-2 : Int) < 0 by decide)
    (List.mem_cons_of_mem _ (List.mem_singleton_self _)) (by decide) (by decide) (by decide)
    (by decide) hrun (by rintro p f r (_ | ⟨_, _ | ⟨_, ⟨⟩⟩⟩); decide)
  by_cases hd : resolve [] d ∈ rootWithA.objects
  · obtain ⟨o, ht, -⟩ := hin hd
    exact ⟨d, hres, o, ht⟩
  · cases (hout hd).1

/-- An absolute path names the same object from every directory. -/
theorem resolve_of_absolute {P : List Char} (habs : P.head? = some '/') (b : List (List Char)) :
    resolve b P = resolve [] P := by
  have h := resolve_absolute habs [] b
  have h' := resolve_absolute habs [] []
  rw [List.append_nil] at h h'
  rw [h, h']

/-- A run of `DFS_GetFileSize` whose lookup finds nothing, answered from a namespace state
with a nonzero status: the worker has done nothing yet, or has returned `-1` right after
the lookup. -/
theorem dfsGetFileSize_missing_run (ns : NamespaceState) {enoent : Int} (he : enoent ≠ 0)
    {P : List Char} (hmiss : resolve [] P ∉ ns.objects) {rank : Nat} {filePerProc : Bool}
    {comm : Comm} {t : List Ev} {q : Ctl Int}
    (h : WorkerRun (.run (dfsGetFileSize rank filePerProc comm P)) t q)
    (hlook : ∀ p f r, Ev.call (.lookup p f) r ∈ t → r = ns.answer enoent (.lookup p f)) :
    (t = [] ∧ q = .run (dfsGetFileSize rank filePerProc comm P)) ∨
      (t = [.call (.lookup P .rdonly) ⟨enoent, 0⟩] ∧ q = .run (.done (-1))) := by
  rcases h.call_inv with ⟨rfl, rfl⟩ | ⟨r, t', rfl, h₁⟩
  · exact .inl ⟨rfl, rfl⟩
  obtain rfl : r = ns.found enoent (resolve [] P) := hlook P .rdonly r (List.mem_cons_self _ _)
  rw [NamespaceState.found, if_neg hmiss] at h₁ ⊢
  rw [if_pos he] at h₁
  obtain ⟨rfl, rfl⟩ := h₁.done_inv
  exact .inr ⟨rfl, rfl⟩

/-- `DFS_GetFileSize` looks its path up as given, read from the root. On an absolute path
that is the object the other operations act on from any working directory: in every run
whose lookup is answered from a namespace state reporting a missing object with a
nonzero status, a missing object makes the worker return `-1` right after the lookup,
entering no collective, and an existing one is found and its size read next. -/
theorem dfsGetFileSize_reads_named_object (ns : NamespaceState) {enoent : Int} (he : enoent ≠ 0)
    (cwd : List Char) {P : List Char} (habs : P.head? = some '/') {rank : Nat}
    {filePerProc : Bool} {comm : Comm} {t : List Ev} {q : Ctl Int}
    (h : WorkerRun (.run (dfsGetFileSize rank filePerProc comm P)) t q) (ht : t ≠ [])
    (hlook : ∀ p f r, Ev.call (.lookup p f) r ∈ t → r = ns.answer enoent (.lookup p f)) :
    (resolve (resolve [] cwd) P ∉ ns.objects →
      t = [.call (.lookup P .rdonly) ⟨enoent, 0⟩] ∧ q = .run (.done (-1))) ∧
    (resolve (resolve [] cwd) P ∈ ns.objects → ∃ t', t = .call (.lookup P .rdonly) ⟨0, 0⟩ :: t' ∧
      ∀ e ∈ t'.head?, ∃ g, e = .call (.getSize P) g) := by
  rw [resolve_of_absolute habs]
  refine ⟨fun hn => ((dfsGetFileSize_missing_run ns he hn h hlook).resolve_left
    fun h₀ => ht h₀.1), fun hm => ?_⟩
  rcases h.call_inv with ⟨rfl, -⟩ | ⟨r, t', rfl, h₁⟩
  · exact absurd rfl ht
  obtain rfl : r = ns.found enoent (resolve [] P) := hlook P .rdonly r (List.mem_cons_self _ _)
  rw [NamespaceState.found, if_pos hm] at h₁ ⊢
  refine ⟨t', rfl, fun e he' => ?_⟩
  rcases h₁.call_inv with ⟨rfl, -⟩ | ⟨g, t'', rfl, -⟩
  · cases he'
  · exact ⟨g, (Option.some.inj he').symm⟩

end IorDfs
