import IorDfs.Engine

/-!
# Path Resolution: `parse_filename`

`parse_filename` (lines 202-291) splits a path into the parent directory the
engine looks up and the leaf name created or opened in it. It calls the POSIX
`basename` and `dirname` of `<libgen.h>`, modelled in §1 as glibc implements them
(the cases POSIX leaves to the implementation, a root written `//`, as glibc resolves
them), and resolves a relative directory against `getcwd`.

§3 models the bytes `strcpy`/`strcat` write into the `calloc`ed `new_dir` block:
a `CBuf` carries the proof that its string and NUL lie inside the block, so a write
that would leave it has no result. §4 gives paths their meaning under `.`/`..`
semantics, to compare what `parse_filename` returns with what it was asked for;
§5 proves that they agree off the cases it gets wrong, and §6 that on a normal
absolute path the parent and the leaf give the path back.
-/

namespace IorDfs

/-- Results of `parse_filename` are compared by value. -/
instance exceptDecidableEq {ε β : Type} [DecidableEq ε] [DecidableEq β] :
    DecidableEq (Except ε β)
  | .error a, .error b => decidable_of_iff (a = b) ⟨congrArg _, Except.error.inj⟩
  | .ok a, .ok b => decidable_of_iff (a = b) ⟨congrArg _, Except.ok.inj⟩
  | .error _, .ok _ => isFalse Except.noConfusion
  | .ok _, .error _ => isFalse Except.noConfusion

/-- Linux `ENOMEM`. -/
def ENOMEM : Int := 12

/-! ## §1 POSIX `basename` and `dirname` -/

/-- POSIX `basename`: the last component, trailing slashes ignored; `/` for a string
of slashes, `.` for the empty string. -/
def basename (s : List Char) : List Char :=
  if s = [] then ['.']
  else
    let t := s.rdropWhile (· == '/')
    if t = [] then ['/'] else t.rtakeWhile (· != '/')

/-- The `dirname` of glibc's `<libgen.h>`, which follows POSIX: everything before the
last component, trailing slashes removed; `.` when there is no slash, `/` when only the
root is left. Where POSIX leaves the root to the implementation, glibc keeps exactly two
leading slashes: `//` and `//f` give `//`, `///f` gives `/`. -/
def dirname (s : List Char) : List Char :=
  let t := s.rdropWhile (· == '/')
  if t = [] then (if s = [] then ['.'] else if s = ['/', '/'] then s else ['/'])
  else
    let u := t.rdropWhile (· != '/')
    if u = [] then ['.']
    else
      let v := u.rdropWhile (· == '/')
      if v = [] then (if u = ['/', '/'] then u else ['/']) else v

example : dirname "//f".toList = "//".toList ∧ dirname "///f".toList = ['/'] ∧
    dirname "a//b/".toList = ['a'] := by decide

/-! ## §2 `parse_filename` -/

/-- The string lines 252-266 build in `new_dir` for a relative `cont_name` other
than `"."`: the working directory, then `cont_name` without its first character
when that is `'.'`, else a separator and `cont_name`. -/
def newDir (cwd contName : List Char) : List Char :=
  if contName.head? = some '.' then cwd ++ contName.tail else cwd ++ '/' :: contName

/-- `parse_filename(path, &obj_name, &cont_name)` with `getcwd` answering `cwd`
(`none` when it fails): `(cont_name, obj_name)`, or the negative status. The
NULL-argument check (`-EINVAL`) cannot fire here: every caller passes its locals. -/
def parseFilename (cwd : Option (List Char)) (path : List Char) :
    Except Int (List Char × Option (List Char)) :=
  if path = ['/'] then .ok (['/'], none)
  else
    let fname := basename path
    let contName := dirname path
    if contName.head? = some '.' ∨ contName.head? ≠ some '/' then
      match cwd with
      | none => .error (-ENOMEM)
      | some cwd => .ok (if contName = ['.'] then cwd else newDir cwd contName, some fname)
    else .ok (contName, some fname)

/-- `parse_filename` fails only with a negative status, so `DERR` always catches it. -/
theorem parseFilename_error_neg {cwd : Option (List Char)} {path : List Char} {rc : Int}
    (h : parseFilename cwd path = .error rc) : rc < 0 := by
  simp only [parseFilename] at h
  split_ifs at h <;> (try split at h) <;> cases h <;> decide

/-- The root has no leaf. -/
theorem parseFilename_root (cwd : Option (List Char)) :
    parseFilename cwd ['/'] = .ok (['/'], none) := rfl

/-- Any other path gets its `basename` as the leaf. -/
theorem parseFilename_leaf {cwd : Option (List Char)} {path dir : List Char}
    {name : Option (List Char)} (hp : path ≠ ['/']) (h : parseFilename cwd path = .ok (dir, name)) :
    name = some (basename path) := by
  simp only [parseFilename, hp, if_false] at h
  split_ifs at h <;> (try split at h) <;> cases h <;> rfl

/-! ## §3 The `new_dir` block -/

/-- A heap block of `cap` bytes holding a NUL-terminated string. -/
structure CBuf where
  cap : Nat
  str : List Char
  /-- The string and its NUL lie inside the block. -/
  fits : str.length < cap

namespace CBuf

/-- `calloc(n + 1, sizeof(char))`: a zeroed block, i.e. the empty string. -/
def calloc (n : Nat) : CBuf := ⟨n + 1, [], Nat.succ_pos n⟩

/-- `strcpy(b, s)`; `none` when a byte would be written past the block. -/
def strcpy (b : CBuf) (s : List Char) : Option CBuf :=
  if h : s.length < b.cap then some ⟨b.cap, s, h⟩ else none

/-- `strcat(b, s)`; `none` when a byte would be written past the block. -/
def strcat (b : CBuf) (s : List Char) : Option CBuf :=
  if h : b.str.length + s.length < b.cap then
    some ⟨b.cap, b.str ++ s, by simpa using h⟩
  else none

theorem strcpy_eq_some {b b' : CBuf} {s : List Char} (h : b.strcpy s = some b') :
    b'.cap = b.cap ∧ b'.str = s := by
  unfold strcpy at h
  split at h <;> cases h
  exact ⟨rfl, rfl⟩

theorem strcat_eq_some {b b' : CBuf} {s : List Char} (h : b.strcat s = some b') :
    b'.cap = b.cap ∧ b'.str = b.str ++ s := by
  unfold strcat at h
  split at h <;> cases h
  exact ⟨rfl, rfl⟩

/-- Copying `s` into a block sized for `s` and more always fits. -/
theorem strcpy_calloc (s : List Char) (n : Nat) :
    (calloc (s.length + n)).strcpy s = some ⟨s.length + n + 1, s, by omega⟩ :=
  dif_pos (by simp [calloc]; omega)

end CBuf

/-- Lines 252-265: `calloc(strlen(cwd) + strlen(cont_name) + 1)`, `strcpy` of the
working directory, then the `strcat`s of `newDir`. -/
def newDirBuf (cwd contName : List Char) : Option CBuf :=
  ((CBuf.calloc (cwd.length + contName.length)).strcpy cwd).bind fun b =>
    if contName.head? = some '.' then b.strcat contName.tail
    else (b.strcat ['/']).bind (·.strcat contName)

/-- When the writes stay inside the block, it holds the string `newDir` describes. -/
theorem newDirBuf_str {cwd contName : List Char} {b : CBuf}
    (h : newDirBuf cwd contName = some b) : b.str = newDir cwd contName := by
  simp only [newDirBuf, Option.bind_eq_some] at h
  obtain ⟨b₁, h₁, h⟩ := h
  obtain ⟨-, hs₁⟩ := CBuf.strcpy_eq_some h₁
  by_cases hd : contName.head? = some '.' <;>
    simp only [newDir, hd, if_true, if_false, Option.bind_eq_some] at h ⊢
  · rw [(CBuf.strcat_eq_some h).2, hs₁]
  · obtain ⟨b₂, h₂, h⟩ := h
    rw [(CBuf.strcat_eq_some h).2, (CBuf.strcat_eq_some h₂).2, hs₁]
    simp

/-- The writes stay inside the block exactly when `cont_name` starts with `'.'`: the
separator branch needs `strlen(cwd) + strlen(cont_name) + 2` bytes. -/
theorem newDirBuf_isSome_iff (cwd : List Char) {contName : List Char} (hc : contName ≠ []) :
    (newDirBuf cwd contName).isSome ↔ contName.head? = some '.' := by
  obtain ⟨c, cs, rfl⟩ := List.exists_cons_of_ne_nil hc
  by_cases hd : c = '.'
  · simp [newDirBuf, CBuf.strcpy_calloc, CBuf.strcat, hd]
    omega
  · simp [newDirBuf, CBuf.strcpy_calloc, CBuf.strcat, hd]
    omega

/-- For `P = "a/f"`, whatever the working directory, the separator branch writes
past the block `calloc` returned. -/
theorem newDirBuf_overflows_for_a_f (cwd : List Char) :
    newDirBuf cwd (dirname "a/f".toList) = none := by
  rw [← Option.not_isSome_iff_eq_none, newDirBuf_isSome_iff cwd (by decide)]
  decide

/-- `dirname` never returns the empty string. -/
theorem dirname_ne_nil (s : List Char) : dirname s ≠ [] := by
  unfold dirname
  dsimp only
  split_ifs <;> first | exact List.cons_ne_nil _ _ | assumption

/-- For every working directory and every path whose directory is relative and not `"."`,
`parse_filename` returns the `new_dir` string as the parent, and its writes into the
block `calloc(strlen(cwd) + strlen(cont_name) + 1)` stay inside it exactly when the
directory starts with `'.'`, the block then holding that string: on every path such as
`a/f` they write past it. -/
theorem parseFilename_newDir_fits_iff (cwd P : List Char) (hrel : (dirname P).head? ≠ some '/')
    (hdot : dirname P ≠ ['.']) :
    parseFilename (some cwd) P = .ok (newDir cwd (dirname P), some (basename P)) ∧
      ((newDirBuf cwd (dirname P)).isSome ↔ (dirname P).head? = some '.') ∧
      ∀ b, newDirBuf cwd (dirname P) = some b → b.str = newDir cwd (dirname P) := by
  have hP : P ≠ ['/'] := by rintro rfl; exact hrel rfl
  refine ⟨?_, newDirBuf_isSome_iff cwd (dirname_ne_nil P), fun b => newDirBuf_str⟩
  simp only [parseFilename, hP, if_false, hrel, ne_eq, not_false_eq_true, or_true, if_true, hdot]

theorem parseFilename_newDir_fits_iff_a_f :
    ((dirname "a/f".toList).head? ≠ some '/' ∧ dirname "a/f".toList ≠ ['.']) ∧
      (newDirBuf "/home".toList (dirname "a/f".toList)).isSome = false :=
  have h := (parseFilename_newDir_fits_iff "/home".toList "a/f".toList (by decide) (by decide)).2.1
  ⟨⟨by decide, by decide⟩, by rw [Bool.eq_false_iff, ne_eq, h]; decide⟩

/-! ## §4 What a path names -/

/-- The components of a path: its maximal runs of characters other than `/`. -/
def components (s : List Char) : List (List Char) :=
  componentsFrom s []
where
  /-- The components of `s`, after a current component `cur` (kept reversed). -/
  componentsFrom : List Char → List Char → List (List Char)
    | [], cur => if cur = [] then [] else [cur.reverse]
    | c :: s, cur =>
      if c = '/' then (if cur = [] then [] else [cur.reverse]) ++ componentsFrom s []
      else componentsFrom s (c :: cur)

/-- One component read in directory `dir`: `.` stays, `..` goes up (the root is its
own parent), a name goes down. -/
def descend (dir : List (List Char)) (c : List Char) : List (List Char) :=
  if c = ['.'] then dir else if c = ['.', '.'] then dir.dropLast else dir ++ [c]

/-- The directory chain a path names when read in `base`; an absolute path is read
from the root. -/
def resolve (base : List (List Char)) (p : List Char) : List (List Char) :=
  (components p).foldl descend (if p.head? = some '/' then [] else base)

/-- A path none of whose components is `.` or `..`: read with `.`/`..` semantics it goes
down one entry per component, as a walk through its entry names does. -/
def DotFree (p : List Char) : Prop :=
  ∀ c ∈ components p, c ≠ ['.'] ∧ c ≠ ['.', '.']

instance (p : List Char) : Decidable (DotFree p) :=
  inferInstanceAs (Decidable (∀ c ∈ components p, c ≠ ['.'] ∧ c ≠ ['.', '.']))

/-- A name other than `.` and `..` read in a directory goes down into it. -/
theorem descend_of_ne_dot {b : List (List Char)} {n : List Char}
    (hn : n ≠ ['.'] ∧ n ≠ ['.', '.']) : descend b n = b ++ [n] := by
  simp [descend, hn.1, hn.2]

/-- Reading components that are all names appends them. -/
theorem foldl_descend_names {cs : List (List Char)} (h : ∀ c ∈ cs, c ≠ ['.'] ∧ c ≠ ['.', '.'])
    (b : List (List Char)) : cs.foldl descend b = b ++ cs := by
  induction cs generalizing b with
  | nil => simp
  | cons c cs ih =>
    rw [List.foldl_cons, descend_of_ne_dot (h c (List.mem_cons_self _ _)),
      ih fun c' hc' => h c' (List.mem_cons_of_mem _ hc')]
    simp

/-- A path free of `.` and `..` names its components, read from the root or from `base`. -/
theorem resolve_of_dotFree {p : List Char} (h : DotFree p) (base : List (List Char)) :
    resolve base p = (if p.head? = some '/' then [] else base) ++ components p :=
  foldl_descend_names h _

/-- For `P = "../d/f"` in `/home`, `parse_filename` hands the engine the parent
`/home./d`, which is not the directory `../d` names there (`/d`); for `P = "///"`
the leaf is `"/"`. -/
theorem parseFilename_dotDot_parent :
    parseFilename (some "/home".toList) "../d/f".toList = .ok ("/home./d".toList, some ['f']) ∧
      resolve [] "/home./d".toList ≠
        resolve (resolve [] "/home".toList) (dirname "../d/f".toList) ∧
      parseFilename (some "/home".toList) "///".toList = .ok (['/'], some ['/']) := by
  decide

/-! ## §5 Where `parse_filename` is right

`parseFilename_dotDot_parent` shows two ways `parse_filename` misses: a directory
starting with `.` followed by another character (`..`, `.d`), whose first character
`new_dir` drops without a separator, and a path of slashes only, whose leaf is `/`.
`parseFilename_resolves` proves that these are the only ways: on every other path the
parent, an absolute path, and the leaf, a single component, name what the path names.

The path splits as `u ++ leaf ++ S`: trailing slashes `S`, the leaf, and before it
nothing or a directory part ending in `/` (`path_split`). Its components are those of
`dirname` and then the leaf (`foldl_components_dirname`), the `"."` of a path without
a directory standing for no component. -/

theorem rdropWhile_append_rtakeWhile {β : Type} (p : β → Bool) (l : List β) :
    l.rdropWhile p ++ l.rtakeWhile p = l := by
  rw [List.rdropWhile, List.rtakeWhile, ← List.reverse_append, List.takeWhile_append_dropWhile,
    List.reverse_reverse]

namespace components

theorem componentsFrom_append_slash (a b cur : List Char) :
    componentsFrom (a ++ '/' :: b) cur = componentsFrom a cur ++ componentsFrom b [] := by
  induction a generalizing cur with
  | nil => simp [componentsFrom]
  | cons c a ih =>
    by_cases hc : c = '/' <;> simp [componentsFrom, hc, ih]

theorem componentsFrom_slashes {S : List Char} (hS : ∀ c ∈ S, c = '/') :
    componentsFrom S [] = [] := by
  induction S with
  | nil => rfl
  | cons c S ih =>
    rw [hS c (List.mem_cons_self _ _), componentsFrom]
    simp [ih fun c hc => hS c (List.mem_cons_of_mem _ hc)]

theorem componentsFrom_slash_free {L : List Char} (hL : '/' ∉ L) (cur : List Char) :
    componentsFrom L cur = if cur = [] ∧ L = [] then [] else [cur.reverse ++ L] := by
  induction L generalizing cur with
  | nil => by_cases h : cur = [] <;> simp [componentsFrom, h]
  | cons c L ih =>
    have hc : c ≠ '/' := fun h => hL (h ▸ List.mem_cons_self _ _)
    simp [componentsFrom, hc, ih (fun h => hL (List.mem_cons_of_mem _ h))]

end components

theorem components_append_slash (a b : List Char) :
    components (a ++ '/' :: b) = components a ++ components b :=
  components.componentsFrom_append_slash a b []

theorem components_append_slashes {X S : List Char} (hS : ∀ c ∈ S, c = '/') :
    components (X ++ S) = components X := by
  rcases S with _ | ⟨c, S⟩
  · simp
  · have hnil : components S = [] :=
      components.componentsFrom_slashes fun c hc => hS c (List.mem_cons_of_mem _ hc)
    rw [hS c (List.mem_cons_self _ _), components_append_slash, hnil, List.append_nil]

theorem components_slash_free {L : List Char} (hL : L ≠ []) (h : '/' ∉ L) : components L = [L] := by
  simp [components, components.componentsFrom_slash_free h, hL]

/-- The parts of a path with a character other than `/`: the path is `u ++ basename P ++ S`,
with trailing slashes `S` and a leaf that is a single component; before the leaf there is
nothing, and the directory is `"."`, or a part ending in `/` with the components of the
directory, which starts as that part does. -/
theorem path_split {P : List Char} (hP : ∃ c ∈ P, c ≠ '/') :
    ∃ u S, P = u ++ basename P ++ S ∧ (∀ c ∈ S, c = '/') ∧ basename P ≠ [] ∧
      '/' ∉ basename P ∧
      ((u = [] ∧ dirname P = ['.']) ∨
        ∃ u', u = u' ++ ['/'] ∧ components (dirname P) = components u' ∧
          (dirname P).head? = u.head?) := by
  obtain ⟨c, hc, hc'⟩ := hP
  set T := P.rdropWhile (· == '/') with hT
  have hTne : T ≠ [] := fun h => hc' (by simpa using List.rdropWhile_eq_nil_iff.mp h c hc)
  have hPne : P ≠ [] := List.ne_nil_of_mem hc
  set u := T.rdropWhile (· != '/') with hu
  set L := T.rtakeWhile (· != '/') with hL
  have hbase : basename P = L := by simp [basename, hPne, ← hT, hTne, hL]
  have hLfree : '/' ∉ L := fun h => by simpa using List.mem_rtakeWhile_imp h
  have hLne : L ≠ [] := by
    intro h
    have := (List.rtakeWhile_eq_nil_iff.mp h) hTne
    have hlast := List.rdropWhile_last_not (· == '/') P hTne
    simp_all
  refine ⟨u, P.rtakeWhile (· == '/'), ?_, fun c hc => by simpa using List.mem_rtakeWhile_imp hc,
    hbase ▸ hLne, hbase ▸ hLfree, ?_⟩
  · rw [hbase, hu, hL, rdropWhile_append_rtakeWhile, hT, rdropWhile_append_rtakeWhile]
  by_cases hu0 : u = []
  · exact .inl ⟨hu0, by simp [dirname, ← hT, hTne, ← hu, hu0]⟩
  refine .inr ⟨u.dropLast, ?_, ?_⟩
  · have hlast := List.rdropWhile_last_not (· != '/') T hu0
    simp only [← hu, bne_iff_ne, ne_eq, not_not] at hlast
    conv_lhs => rw [← List.dropLast_append_getLast hu0, hlast]
  have hsplit := rdropWhile_append_rtakeWhile (· == '/') u
  have hcomp : components u = components u.dropLast := by
    have hlast := List.rdropWhile_last_not (· != '/') T hu0
    simp only [← hu, bne_iff_ne, ne_eq, not_not] at hlast
    conv_lhs => rw [← List.dropLast_append_getLast hu0, hlast]
    exact components_append_slashes (by simp)
  have hslashes : ∀ c ∈ u.rtakeWhile (· == '/'), c = '/' := fun c hc => by
    simpa using List.mem_rtakeWhile_imp hc
  by_cases hv : u.rdropWhile (· == '/') = []
  · have hd : components (dirname P) = [] ∧ (dirname P).head? = some '/' := by
      have hd' : dirname P = if u = ['/', '/'] then u else ['/'] := by
        simp [dirname, ← hT, hTne, ← hu, hu0, hv]
      rw [hd']
      split_ifs with h2
      · rw [h2]; exact ⟨rfl, rfl⟩
      · exact ⟨rfl, rfl⟩
    have hall : ∀ c ∈ u, c = '/' := by simpa using List.rdropWhile_eq_nil_iff.mp hv
    refine ⟨?_, ?_⟩
    · have hnil : components u = [] := by
        rw [← hsplit, hv]
        exact components_append_slashes (X := []) hslashes
      rw [hd.1, ← hcomp, hnil]
    · obtain ⟨a, u'', hau⟩ := List.exists_cons_of_ne_nil hu0
      rw [hd.2, hau, hall a (hau ▸ List.mem_cons_self _ _)]
      rfl
  · have hd : dirname P = u.rdropWhile (· == '/') := by simp [dirname, ← hT, hTne, ← hu, hu0, hv]
    refine ⟨?_, ?_⟩
    · rw [hd, ← hcomp]
      conv_rhs => rw [← hsplit]
      exact (components_append_slashes hslashes).symm
    · rw [hd]
      conv_rhs => rw [← hsplit]
      obtain ⟨a, v, hav⟩ := List.exists_cons_of_ne_nil hv
      rw [hav]; rfl

/-- Each component of the directory is one of the path's, unless the directory is `"."`. -/
theorem mem_components_of_dirname {P : List Char} (hP : ∃ c ∈ P, c ≠ '/') {c : List Char}
    (hc : c ∈ components (dirname P)) : dirname P = ['.'] ∨ c ∈ components P := by
  obtain ⟨u, S, hPs, -, -, -, ⟨-, hd⟩ | ⟨u', rfl, hcomp, -⟩⟩ := path_split hP
  · exact .inl hd
  · generalize basename P = L at hPs
    rw [hPs, List.append_assoc, List.append_assoc, List.singleton_append, components_append_slash]
    exact .inr (List.mem_append_left _ (hcomp ▸ hc))

/-- Reading a path from `b` is reading its directory, then its leaf. -/
theorem foldl_components_dirname {P : List Char} (hP : ∃ c ∈ P, c ≠ '/')
    (b : List (List Char)) :
    (components P).foldl descend b =
      descend ((components (dirname P)).foldl descend b) (basename P) := by
  obtain ⟨u, S, hPs, hS, hne, hfree, ⟨rfl, hd⟩ | ⟨u', rfl, hc, -⟩⟩ := path_split hP
  · conv_lhs => rw [hPs]
    rw [hd, List.nil_append, components_append_slashes hS, components_slash_free hne hfree]
    rfl
  · conv_lhs => rw [hPs]
    rw [components_append_slashes hS, List.append_assoc, List.singleton_append,
      components_append_slash, components_slash_free hne hfree, hc, List.foldl_append]
    rfl

/-- The directory is absolute exactly when the path is. -/
theorem dirname_head_slash {P : List Char} (hP : ∃ c ∈ P, c ≠ '/') :
    (dirname P).head? = some '/' ↔ P.head? = some '/' := by
  obtain ⟨u, S, hPs, -, hne, hfree, ⟨rfl, hd⟩ | ⟨u', rfl, -, hh⟩⟩ := path_split hP
  · rw [hd, hPs, List.nil_append, List.head?_append_of_ne_nil _ hne]
    obtain ⟨a, L, hL⟩ := List.exists_cons_of_ne_nil hne
    rw [hL] at hfree ⊢
    simpa using fun h : a = '/' => hfree (h ▸ List.mem_cons_self _ _)
  · rw [hh, hPs, List.append_assoc (u' ++ ['/']),
      List.head?_append_of_ne_nil (u' ++ ['/']) (by simp)]

theorem resolve_absolute {cwd : List Char} (hcwd : cwd.head? = some '/') (X : List Char)
    (b : List (List Char)) :
    resolve b (cwd ++ X) = (components (cwd ++ X)).foldl descend [] := by
  have hne : cwd ≠ [] := by rintro rfl; cases hcwd
  rw [resolve, List.head?_append_of_ne_nil _ hne, if_pos hcwd]

/-- `parse_filename` is right off the two cases of `parseFilename_dotDot_parent`: for an
absolute working directory and a path with a character other than `/` whose directory
is `"."` or does not start with `.` followed by a character other than `/`, the leaf is
a single component, the parent is an absolute path, and the leaf read in the parent
names what the path names from the working directory. -/
theorem parseFilename_resolves {cwd P : List Char} (hcwd : cwd.head? = some '/')
    (hP : ∃ c ∈ P, c ≠ '/')
    (hdot : (dirname P).head? = some '.' → dirname P = ['.'] ∨ (dirname P).take 2 = ['.', '/']) :
    ∃ parent leaf, parseFilename (some cwd) P = .ok (parent, some leaf) ∧ leaf ≠ [] ∧
      '/' ∉ leaf ∧ parent.head? = some '/' ∧
      descend (resolve [] parent) leaf = resolve (resolve [] cwd) P := by
  have hP1 : P ≠ ['/'] := by rintro rfl; simp at hP
  obtain ⟨u, S, -, -, hne, hfree, -⟩ := path_split hP
  have hcwd' : resolve [] cwd = (components cwd).foldl descend [] := by
    simpa using resolve_absolute hcwd [] []
  by_cases habs : (dirname P).head? = some '/'
  · have hPabs := (dirname_head_slash hP).mp habs
    refine ⟨dirname P, basename P, ?_, hne, hfree, habs, ?_⟩
    · simp [parseFilename, hP1, habs]
    · rw [resolve, if_pos habs, resolve, if_pos hPabs, foldl_components_dirname hP]
  have hPrel : ¬P.head? = some '/' := fun h => habs ((dirname_head_slash hP).mpr h)
  rw [resolve, if_neg hPrel, foldl_components_dirname hP, hcwd']
  by_cases hd : dirname P = ['.']
  · refine ⟨cwd, basename P, by simp [parseFilename, hP1, hd], hne, hfree, hcwd, ?_⟩
    rw [hd, hcwd']
    rfl
  have hrel : (dirname P).head? = some '.' ∨ (dirname P).head? ≠ some '/' := .inr habs
  refine ⟨newDir cwd (dirname P), basename P, by simp [parseFilename, hP1, hd, habs], hne,
    hfree, ?_, ?_⟩
  · have hne' : cwd ≠ [] := by rintro rfl; cases hcwd
    unfold newDir
    split_ifs <;> rw [List.head?_append_of_ne_nil _ hne', hcwd]
  unfold newDir
  split_ifs with hdot'
  · obtain ⟨rest, hrest⟩ : ∃ rest, dirname P = '.' :: '/' :: rest := by
      rcases hdot hdot' with h | h
      · exact absurd h hd
      · rcases hdn : dirname P with _ | ⟨a, _ | ⟨b, rest⟩⟩ <;> simp_all
    rw [hrest, List.tail_cons, resolve_absolute hcwd, components_append_slash, List.foldl_append,
      show ('.' :: '/' :: rest : List Char) = ['.'] ++ '/' :: rest from rfl,
      components_append_slash, List.foldl_append]
    rfl
  · rw [resolve_absolute hcwd, components_append_slash, List.foldl_append]

/-! ## §6 A round trip

On a normal absolute path, one with no `//` and no trailing `/`, `parse_filename` loses
nothing: the parent and the leaf it returns, joined by one `/` (none after the root),
give the path back. -/

/-- The parent and the leaf joined again: one `/` between them, none after the root. -/
def joinPath (parent leaf : List Char) : List Char :=
  if parent = ['/'] then parent ++ leaf else parent ++ '/' :: leaf

/-- A normal absolute path splits at its last `/` into a directory part `w` that does not
end in `/` and the leaf, a single component; its `dirname` is `w`, or `/` when `w` is
empty. -/
theorem split_last_slash {P : List Char} (habs : P.head? = some '/')
    (hlast : P.getLast? ≠ some '/') (hsingle : P.Chain' fun a b => a = '/' → b ≠ '/') :
    ∃ w, P = w ++ '/' :: basename P ∧ '/' ∉ basename P ∧
      dirname P = (if w = [] then ['/'] else w) ∧ ∀ h : w ≠ [], w.getLast h ≠ '/' := by
  have hne : P ≠ [] := by rintro rfl; cases habs
  have hT : P.rdropWhile (· == '/') = P := List.rdropWhile_eq_self_iff.mpr fun _ h =>
    hlast (by rw [List.getLast?_eq_getLast P hne]; simpa using h)
  have hbase : basename P = P.rtakeWhile (· != '/') := by simp [basename, hne, hT]
  have hu0 : P.rdropWhile (· != '/') ≠ [] := fun h => by
    obtain ⟨a, P', rfl⟩ := List.exists_cons_of_ne_nil hne
    obtain rfl : a = '/' := by simpa using habs
    simpa using List.rdropWhile_eq_nil_iff.mp h '/' (List.mem_cons_self _ _)
  -- the part up to the last `/` ends in it
  obtain ⟨w, hu⟩ : ∃ w, P.rdropWhile (· != '/') = w ++ ['/'] := by
    have h' := List.rdropWhile_last_not (· != '/') P hu0
    simp only [bne_iff_ne, ne_eq, not_not] at h'
    exact ⟨_, by conv_lhs => rw [← List.dropLast_append_getLast hu0, h']⟩
  have hP : P = w ++ '/' :: basename P := by
    conv_lhs => rw [← rdropWhile_append_rtakeWhile (· != '/') P, hu]
    simp [hbase]
  -- no `//`, so `w` does not end in `/`
  have hwlast : ∀ h : w ≠ [], w.getLast h ≠ '/' := fun h heq => by
    rw [hP] at hsingle
    exact (List.chain'_append.mp hsingle).2.2 _
      (by rw [List.getLast?_eq_getLast _ h, heq]; rfl) '/' rfl heq rfl
  refine ⟨w, hP, fun h => by rw [hbase] at h; simpa using List.mem_rtakeWhile_imp h, ?_, hwlast⟩
  unfold dirname
  dsimp only
  rw [hT, if_neg hne, hu, if_neg (by simp), List.rdropWhile_concat_pos _ w '/' rfl]
  by_cases hw0 : w = []
  · subst hw0
    rfl
  · rw [List.rdropWhile_eq_self_iff.mpr fun h => by simpa using hwlast h, if_neg hw0, if_neg hw0]

/-- On a normal absolute path `parse_filename` returns the path's `dirname` and
`basename`, the leaf is a single component, and joining them gives the path back. -/
theorem parseFilename_round_trip (cwd : Option (List Char)) {P : List Char}
    (habs : P.head? = some '/') (hlast : P.getLast? ≠ some '/')
    (hsingle : P.Chain' fun a b => a = '/' → b ≠ '/') :
    parseFilename cwd P = .ok (dirname P, some (basename P)) ∧ basename P ≠ [] ∧
      '/' ∉ basename P ∧ joinPath (dirname P) (basename P) = P := by
  obtain ⟨w, hP, hfree, hdir, hwlast⟩ := split_last_slash habs hlast hsingle
  have hhead : (dirname P).head? = some '/' := by
    rw [hdir]
    split_ifs with hw0
    · rfl
    · rwa [hP, List.head?_append_of_ne_nil _ hw0] at habs
  have hP1 : P ≠ ['/'] := by rintro rfl; exact hlast rfl
  refine ⟨by simp [parseFilename, hP1, hhead], fun h => hlast (by rw [hP, h]; simp), hfree, ?_⟩
  generalize basename P = L at hP
  rw [joinPath, hdir]
  conv_rhs => rw [hP]
  by_cases hw0 : w = []
  · simp [hw0]
  · have hw1 : w ≠ ['/'] := fun h => hwlast hw0 (by simp [h])
    simp [hw0, hw1]

theorem parseFilename_round_trip_home_f :
    joinPath (dirname "/home/f".toList) (basename "/home/f".toList) = "/home/f".toList :=
  (parseFilename_round_trip none (by decide) (by decide) (by simp)).2.2.2

end IorDfs
