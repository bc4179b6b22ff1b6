import TsmVm.CcbCreate
import TsmVm.HeaderFiles
import TsmVm.HeaderPaths
import TsmVm.Lib.Lts

/-!
# Loading a library (`bcloader_load`)

The loader puts its parts together: it derives the names of the library and of its
header from the path, reads the functions from the header, asks the dynamic linker for
the address of each, and links the finished set into the list. What the file system and
the linker have is a parameter. A library stays open exactly where its set is linked;
the header is not closed in any case.
-/

namespace TsmVm

/-- What `dlsym` finds in a library; nothing where `dlerror` then has an error. No
function lies at `NULL`. -/
abbrev Library := List UInt8 → Option {func : ℕ // func ≠ 0}

/-- What `bcloader_load` depends on besides its arguments. -/
structure LoadEnv where
  /-- The contents of the files that can be opened. -/
  files : List UInt8 → Option (List UInt8)
  /-- The libraries `dlopen` can load. -/
  library : List UInt8 → Option Library

/-- Whether the two allocations get all of their blocks. -/
structure LoadMemory where
  funcArray : Bool
  set : Bool

/-- What `bcloader_load` changes. -/
structure Loader where
  /-- The loaded libraries. -/
  bcsList : List BcSet
  /-- The paths of the libraries that are open. -/
  handles : List (List UInt8)
  /-- The paths of the headers that are open. -/
  headers : List (List UInt8)

/-- Nothing is loaded. -/
def Loader.start : Loader := ⟨[], [], []⟩

/-- `byte_code_set_alloc`; the slots are filled afterwards. -/
def byteCodeSetAlloc (given : Bool) (name : List UInt8) (base : ℤ) : Option BcSet :=
  if given then some { name := name, base := base, bc := [], bc_ne_zero := List.forall_mem_nil _ }
  else none

/-- `bc_set->bc[i] = func`, for the first slot that is not filled yet. -/
def BcSet.fill (set : BcSet) (func : {func : ℕ // func ≠ 0}) : BcSet :=
  { set with
    bc := set.bc ++ [func.1]
    bc_ne_zero := List.forall_mem_append.mpr ⟨set.bc_ne_zero, by simpa using func.2⟩ }

/-- The loop over the functions, and whether it comes to its end. The set may be
`NULL`. -/
def dlsymLoop (dl : Library) : List (Option (List UInt8)) → Option BcSet →
    Res (Option (Option BcSet))
  | [], bcSet => .ok (some bcSet)
  | slot :: array, bcSet => do
    let name ← derefOption slot
    match dl name with
    | none => return none
    | some func =>
      let set ← derefOption bcSet
      dlsymLoop dl array (some (set.fill func))

/-- `bcloader_load` behind the header. The new set joins the list, which writes to it. -/
def Loader.link (e : LoadEnv) (path : List UInt8) (fa : FuncArray) (bcSet : Option BcSet)
    (l : Loader) : Res (Option BcSet × Loader) :=
  match e.library path with
  | none => .ok (none, l)
  | some dl => do
    let linked ← dlsymLoop dl (fa.array.take fa.cnt.toNat) bcSet
    match linked with
    | none => return (none, l)
    | some bcSet =>
      let set ← derefOption bcSet
      return (some set,
        { l with bcsList := l.bcsList ++ [set], handles := l.handles ++ [path] })

/-- `bcloader_load`. -/
def Loader.bcloaderLoad (e : LoadEnv) (memory : LoadMemory) (path : Option (List UInt8))
    (l : Loader) : Res (Option BcSet × Loader) := do
  let names ← bcloaderNames path
  match path, names with
  | some path, some names =>
    if memory.funcArray then
      let hpath ← cString names.hpath
      let read ← bcloaderGetFuncsName e.files hpath (some (funcArrayAlloc defBycodeSize))
      if read.1 ≠ 0 then return (none, l)
      else
        let fa ← derefOption read.2
        let libfileName ← cString names.libfileName
        Loader.link e path fa (byteCodeSetAlloc memory.set libfileName fa.base)
          { l with headers := l.headers ++ [hpath] }
    else return (none, l)
  | _, _ => return (none, l)

/-! ## The functions of a library -/

/-- The addresses of the functions of some names, if the library can be loaded and has
all of them. -/
def LoadEnv.functions (e : LoadEnv) (path : List UInt8) (names : List (List UInt8)) :
    Option (List {func : ℕ // func ≠ 0}) :=
  (e.library path).bind fun dl => names.mapM dl

/-- A set of some functions. -/
def BcSet.ofFunctions (name : List UInt8) (base : ℤ) (funcs : List {func : ℕ // func ≠ 0}) :
    BcSet where
  name := name
  base := base
  bc := funcs.map Subtype.val
  bc_ne_zero := List.forall_mem_map.mpr fun func _ => func.2

section Functions

variable {dl : Library} {name : List UInt8} {base : ℤ} {names : List (List UInt8)}

theorem BcSet.ofFunctions_fill (funcs : List {func : ℕ // func ≠ 0})
    (func : {func : ℕ // func ≠ 0}) :
    (BcSet.ofFunctions name base funcs).fill func =
      BcSet.ofFunctions name base (funcs ++ [func]) := by
  simp [BcSet.fill, BcSet.ofFunctions]

variable (dl name base) in
/-- The loop fills the set with what the linker has. -/
theorem dlsymLoop_eq (names : List (List UInt8)) (funcs : List {func : ℕ // func ≠ 0}) :
    dlsymLoop dl (names.map some) (some (BcSet.ofFunctions name base funcs)) =
      .ok ((names.mapM dl).map fun rest => some (BcSet.ofFunctions name base (funcs ++ rest))) := by
  induction names generalizing funcs with
  | nil => simp [dlsymLoop]
  | cons n names ih =>
    rw [List.map_cons, dlsymLoop, derefOption_some, ok_bind, List.mapM_cons]
    cases hfunc : dl n with
    | none => rfl
    | some func =>
      dsimp only
      rw [derefOption_some, ok_bind, BcSet.ofFunctions_fill, ih]
      cases names.mapM dl with
      | none => rfl
      | some rest => simp

/-- Without a set it comes to no end with one. -/
theorem dlsymLoop_null {slots : List (Option (List UInt8))} {bcSet : Option BcSet}
    (h : dlsymLoop dl slots none = .ok (some bcSet)) : bcSet = none := by
  cases slots with
  | nil =>
    rw [dlsymLoop] at h
    exact (Option.some.inj (Except.ok.inj h)).symm
  | cons slot slots =>
    rw [dlsymLoop] at h
    obtain ⟨n, -, h⟩ := bind_eq_ok.mp h
    cases hfunc : dl n with
    | none =>
      rw [hfunc] at h
      cases h
    | some func =>
      rw [hfunc] at h
      cases h

/-- Nor past the first function the linker has. -/
theorem dlsymLoop_none (n : List UInt8) (names : List (List UInt8)) :
    dlsymLoop dl ((n :: names).map some) none =
      if (dl n).isSome then .error .nullDeref else .ok none := by
  rw [List.map_cons, dlsymLoop, derefOption_some, ok_bind]
  cases dl n with
  | none => rfl
  | some func => rfl

/-- An array that starts with some names. -/
theorem slots_eq {p : FuncArray} (hcnt : p.cnt = names.length)
    (hslot : ∀ (i : ℕ) (n : List UInt8), names[i]? = some n → p.array[i]? = some (some n)) :
    p.array.take p.cnt.toNat = names.map some := by
  rw [hcnt, Int.toNat_natCast]
  refine List.ext_getElem? fun i => ?_
  rw [List.getElem?_take, List.getElem?_map]
  obtain hi | hi := Nat.lt_or_ge i names.length
  · rw [if_pos hi, List.getElem?_eq_getElem hi]
    exact hslot i _ (List.getElem?_eq_getElem hi)
  · rw [if_neg (by omega), List.getElem?_eq_none hi]
    rfl

/-- Where the loop comes to its end every slot has a name, and the linker has it. -/
theorem dlsymLoop_ok {slots : List (Option (List UInt8))}
    {funcs : List {func : ℕ // func ≠ 0}} {bcSet : Option BcSet}
    (h : dlsymLoop dl slots (some (BcSet.ofFunctions name base funcs)) = .ok (some bcSet)) :
    ∃ (names : List (List UInt8)) (rest : List {func : ℕ // func ≠ 0}),
      slots = names.map some ∧ names.mapM dl = some rest ∧
      bcSet = some (BcSet.ofFunctions name base (funcs ++ rest)) := by
  induction slots generalizing funcs with
  | nil =>
    obtain rfl : some (BcSet.ofFunctions name base funcs) = bcSet := by simpa [dlsymLoop] using h
    exact ⟨[], [], rfl, rfl, by rw [List.append_nil]⟩
  | cons slot slots ih =>
    rw [dlsymLoop] at h
    obtain ⟨n, hslot, hloop⟩ := bind_eq_ok.mp h
    obtain rfl := derefOption_eq_ok.mp hslot
    cases hfunc : dl n with
    | none =>
      rw [hfunc] at hloop
      cases hloop
    | some func =>
      rw [hfunc] at hloop
      dsimp only at hloop
      rw [derefOption_some, ok_bind, BcSet.ofFunctions_fill] at hloop
      obtain ⟨names, rest, rfl, hrest, rfl⟩ := ih hloop
      exact ⟨n :: names, func :: rest, rfl, by simp [List.mapM_cons, hfunc, hrest], by simp⟩

end Functions

/-! ## One load -/

section Load

variable {e : LoadEnv} {path libfileName hpath : List UInt8} {base : ℤ}
  {entries : List (List UInt8)} {fa : FuncArray} {l : Loader}

/-- The set joins the list where every function is found. -/
theorem Loader.link_found (hbase : fa.base = base)
    (hslots : fa.array.take fa.cnt.toNat = entries.map some)
    {funcs : List {func : ℕ // func ≠ 0}}
    (h : e.functions path entries = some funcs) :
    Loader.link e path fa (byteCodeSetAlloc true libfileName fa.base) l =
      .ok (some (BcSet.ofFunctions libfileName base funcs),
        { l with
          bcsList := l.bcsList ++ [BcSet.ofFunctions libfileName base funcs]
          handles := l.handles ++ [path] }) := by
  obtain ⟨dl, hdl, hfuncs⟩ := Option.bind_eq_some_iff.mp h
  have hloop := dlsymLoop_eq dl libfileName base entries []
  rw [hfuncs] at hloop
  have hset : byteCodeSetAlloc true libfileName fa.base =
      some (BcSet.ofFunctions libfileName base []) := by
    rw [hbase]
    rfl
  rw [Loader.link, hdl, hset, hslots]
  dsimp only
  rw [hloop]
  rfl

/-- Otherwise nothing changes. -/
theorem Loader.link_missing (hslots : fa.array.take fa.cnt.toNat = entries.map some)
    (h : e.functions path entries = none) :
    Loader.link e path fa (byteCodeSetAlloc true libfileName fa.base) l = .ok (none, l) := by
  have hset : byteCodeSetAlloc true libfileName fa.base =
      some (BcSet.ofFunctions libfileName fa.base []) := rfl
  rw [Loader.link]
  cases hdl : e.library path with
  | none => rfl
  | some dl =>
    rw [LoadEnv.functions, hdl, Option.bind_some] at h
    have hloop := dlsymLoop_eq dl libfileName fa.base entries []
    rw [h] at hloop
    dsimp only
    rw [hset, hslots, hloop]
    rfl

/-- Without memory for the set the load ends where the linker does not have the first
function, and else writes through `NULL`. -/
theorem Loader.link_refused (hslots : fa.array.take fa.cnt.toNat = entries.map some) :
    Loader.link e path fa (byteCodeSetAlloc false libfileName fa.base) l =
      if (e.functions path (entries.take 1)).isSome then .error .nullDeref else .ok (none, l) := by
  rw [Loader.link, LoadEnv.functions]
  cases hdl : e.library path with
  | none => rfl
  | some dl =>
    dsimp only
    rw [hslots, Option.bind_some]
    cases entries with
    | nil => rfl
    | cons n rest =>
      have hnone : byteCodeSetAlloc false libfileName fa.base = none := rfl
      rw [hnone, dlsymLoop_none]
      cases hfunc : dl n with
      | none => simp [hfunc]
      | some func => simp [hfunc]

/-- The load of a library whose header is read. -/
theorem Loader.bcloaderLoad_eq {names : HeaderNames} {dir stem : List UInt8}
    (hnames : bcloaderNames (some path) = .ok (some names)) (hholds : names.Holds dir stem)
    (hread : bcloaderGetFuncsName e.files (dir ++ hfileName stem)
      (some (funcArrayAlloc defBycodeSize)) = .ok (0, some fa)) (set : Bool) :
    l.bcloaderLoad e ⟨true, set⟩ (some path) =
      Loader.link e path fa (byteCodeSetAlloc set (libName stem) fa.base)
        { l with headers := l.headers ++ [dir ++ hfileName stem] } := by
  rw [Loader.bcloaderLoad, hnames, ok_bind]
  dsimp only
  rw [if_pos rfl, hholds.hpath_eq, ok_bind, hread, ok_bind, if_neg (by simp), derefOption_some,
    ok_bind, hholds.libfileName_eq, ok_bind]

/-- Any load that returns a set has found all the functions of a header. -/
theorem Loader.link_eq_some {set? : Option BcSet} {l' : Loader} {given : Bool}
    (h : Loader.link e path fa (byteCodeSetAlloc given libfileName fa.base) l = .ok (set?, l')) :
    (set? = none ∧ l' = l) ∨ ∃ entries funcs,
      fa.array.take fa.cnt.toNat = entries.map some ∧ e.functions path entries = some funcs ∧
      set? = some (BcSet.ofFunctions libfileName fa.base funcs) ∧
      l' = { l with
        bcsList := l.bcsList ++ [BcSet.ofFunctions libfileName fa.base funcs]
        handles := l.handles ++ [path] } := by
  rw [Loader.link] at h
  cases hdl : e.library path with
  | none =>
    rw [hdl] at h
    cases h
    exact .inl ⟨rfl, rfl⟩
  | some dl =>
    rw [hdl] at h
    obtain ⟨linked, hlinked, h⟩ := bind_eq_ok.mp h
    cases linked with
    | none =>
      cases h
      exact .inl ⟨rfl, rfl⟩
    | some bcSet =>
      obtain ⟨set, hset, h⟩ := bind_eq_ok.mp h
      obtain rfl := derefOption_eq_ok.mp hset
      cases h
      cases given with
      | false =>
        cases dlsymLoop_null hlinked
      | true =>
        have hnew : byteCodeSetAlloc true libfileName fa.base =
            some (BcSet.ofFunctions libfileName fa.base []) := rfl
        rw [hnew] at hlinked
        obtain ⟨entries, funcs, hslots, hfuncs, hset⟩ := dlsymLoop_ok hlinked
        rw [List.nil_append] at hset
        obtain rfl := Option.some.inj hset
        exact .inr ⟨entries, funcs, hslots, by rw [LoadEnv.functions, hdl]; exact hfuncs, rfl, rfl⟩

/-- The set is that of a library: the linker has loaded it, and the functions are those
its header names. -/
def LoadEnv.Provides (e : LoadEnv) (path : List UInt8) (set : BcSet) : Prop :=
  ∃ names hpath fa entries funcs, bcloaderNames (some path) = .ok (some names) ∧
    cString names.libfileName = .ok set.name ∧ cString names.hpath = .ok hpath ∧
    bcloaderGetFuncsName e.files hpath (some (funcArrayAlloc defBycodeSize)) =
      .ok (0, some fa) ∧
    fa.array.take fa.cnt.toNat = entries.map some ∧ e.functions path entries = some funcs ∧
    set = BcSet.ofFunctions set.name fa.base funcs

/-- What a load changes, whatever it is given. -/
theorem Loader.bcloaderLoad_changes {memory : LoadMemory} {path? : Option (List UInt8)}
    {set? : Option BcSet} {l' : Loader}
    (h : l.bcloaderLoad e memory path? = .ok (set?, l')) :
    (set? = none ∧ l'.bcsList = l.bcsList ∧ l'.handles = l.handles) ∨
      ∃ path set, path? = some path ∧ set? = some set ∧ e.Provides path set ∧
        l'.bcsList = l.bcsList ++ [set] ∧ l'.handles = l.handles ++ [path] := by
  obtain ⟨names?, hnames, hload⟩ := bind_eq_ok.mp h
  cases hpath : path? with
  | none =>
    rw [hpath] at hload
    cases hload
    exact .inl ⟨rfl, rfl, rfl⟩
  | some path =>
    subst hpath
    cases names? with
    | none =>
      cases hload
      exact .inl ⟨rfl, rfl, rfl⟩
    | some names =>
      dsimp only at hload
      split at hload
      · obtain ⟨hpath, hhpath, hload⟩ := bind_eq_ok.mp hload
        obtain ⟨read, hread, hload⟩ := bind_eq_ok.mp hload
        split at hload
        · cases hload
          exact .inl ⟨rfl, rfl, rfl⟩
        · rename_i hret
          obtain ⟨fa, hfa, hload⟩ := bind_eq_ok.mp hload
          obtain ⟨libfileName, hlib, hload⟩ := bind_eq_ok.mp hload
          obtain ⟨rfl, rfl⟩ | ⟨entries, funcs, hslots, hfuncs, rfl, rfl⟩ :=
            Loader.link_eq_some hload
          · exact .inl ⟨rfl, rfl, rfl⟩
          · have hread' : read = (0, some fa) :=
              Prod.ext (not_not.mp hret) (derefOption_eq_ok.mp hfa)
            rw [hread'] at hread
            exact .inr ⟨path, _, rfl, rfl,
              ⟨names, hpath, fa, entries, funcs, hnames, hlib, hhpath, hread, hslots, hfuncs, rfl⟩,
              rfl, rfl⟩
      · cases hload
        exact .inl ⟨rfl, rfl, rfl⟩

/-- A loader the model of `ccb_create_ccb` takes for a parameter does this. -/
theorem Loader.bcloaderLoad_refines {memory : LoadMemory} {set? : Option BcSet} {l' : Loader}
    (h : l.bcloaderLoad e memory (some path) = .ok (set?, l')) {c : CreateEnv}
    (hdl : c.dl.deref = .ok path) (hc : c.bcloader path = set?) :
    TsmVm.bcloaderLoad c l.bcsList = .ok (set?, l'.bcsList) := by
  rw [TsmVm.bcloaderLoad, hdl, ok_bind, hc]
  obtain ⟨rfl, hlist, -⟩ | ⟨path, set, -, rfl, -, hlist, -⟩ := Loader.bcloaderLoad_changes h
  · rw [hlist]
    rfl
  · rw [hlist]
    rfl

/-- `NULL` for a path. -/
theorem Loader.bcloaderLoad_null (memory : LoadMemory) :
    l.bcloaderLoad e memory none = .ok (none, l) := by
  have hnames : bcloaderNames none = .ok none := rfl
  rw [Loader.bcloaderLoad, hnames]
  rfl

end Load

/-! ## Headers that are read as they are meant -/

section Headers

variable {e : LoadEnv} {path dir stem : List UInt8} {set : BcSet} {file : HeaderFile}

/-- A header that is read as it is meant. -/
theorem LoadEnv.reads_of_loadable (hfile : e.files path = some file.toScriptFile.bytes)
    (hload : file.Loadable) :
    ∃ fa, bcloaderGetFuncsName e.files path (some (funcArrayAlloc defBycodeSize)) =
        .ok (0, some fa) ∧ fa.base = file.base ∧
      fa.array.take fa.cnt.toNat = file.names.map some := by
  obtain ⟨fa, hread, hbase, hcnt, hslot⟩ := hload.followsHeader path
  refine ⟨fa, ?_, hbase, slots_eq hcnt hslot⟩
  rw [← hread, bcloaderGetFuncsName, bcloaderGetFuncsName, hfile]

/-- The set of a library with such a header is as the header says. -/
theorem LoadEnv.Provides.set_eq (h : e.Provides path set) (hpath : LibraryPath path dir stem)
    (hdir : dir ≠ [47]) (hchars : ∀ b ∈ path, b ≠ 0)
    (hfile : e.files (dir ++ hfileName stem) = some file.toScriptFile.bytes)
    (hload : file.Loadable) :
    set.name = libName stem ∧ set.base = file.base ∧
      ∃ funcs, e.functions path file.names = some funcs ∧ set.bc = funcs.map Subtype.val := by
  obtain ⟨names, hpath', fa, entries, funcs, hnames, hlib, hhpath, hread, hslots, hfuncs, hset⟩ := h
  obtain ⟨names', hnames', hholds⟩ := hpath.names_of_ne hdir hchars
  obtain rfl : names' = names := by simpa [hnames'] using hnames
  obtain rfl : dir ++ hfileName stem = hpath' := Except.ok.inj (hholds.hpath_eq.symm.trans hhpath)
  obtain ⟨fa', hread', hbase, hslots'⟩ := LoadEnv.reads_of_loadable hfile hload
  obtain rfl : fa' = fa := by simpa [hread'] using hread
  obtain rfl : file.names = entries :=
    List.map_injective_iff.mpr (Option.some_injective _) (hslots'.symm.trans hslots)
  refine ⟨Except.ok.inj (hlib.symm.trans hholds.libfileName_eq), ?_, funcs, hfuncs, ?_⟩
  · rw [hset]
    exact hbase
  · rw [hset]
    rfl

/-- A path provides one set. -/
theorem LoadEnv.Provides.unique {set' : BcSet} (h : e.Provides path set)
    (h' : e.Provides path set') : set = set' := by
  obtain ⟨names, hpath, fa, entries, funcs, hnames, hlib, hhpath, hread, hslots, hfuncs, hset⟩ := h
  obtain ⟨names', hpath', fa', entries', funcs', hnames', hlib', hhpath', hread', hslots',
    hfuncs', hset'⟩ := h'
  obtain rfl : names = names' := by simpa [hnames] using hnames'
  obtain rfl : hpath = hpath' := Except.ok.inj (hhpath.symm.trans hhpath')
  obtain rfl : fa = fa' := by simpa [hread] using hread'
  obtain rfl : entries = entries' :=
    List.map_injective_iff.mpr (Option.some_injective _) (hslots.symm.trans hslots')
  obtain rfl : funcs = funcs' := Option.some.inj (hfuncs.symm.trans hfuncs')
  have hname : set.name = set'.name := Except.ok.inj (hlib.symm.trans hlib')
  rw [hset, hset', hname]

end Headers

section LoadableHeader

variable {e : LoadEnv} {path : CText} {dir stem : List UInt8} {file : HeaderFile}
  (hpath : LibraryPath path.chars dir stem) (hdir : dir ≠ [47])
  (hfile : e.files (dir ++ hfileName stem) = some file.toScriptFile.bytes)
  (hload : file.Loadable) (l : Loader)

include hpath hdir hfile hload

/-- With such a header the load is what is done behind it. -/
theorem Loader.bcloaderLoad_loadable (set : Bool) :
    ∃ fa : FuncArray, fa.base = file.base ∧
      fa.array.take fa.cnt.toNat = file.names.map some ∧
      l.bcloaderLoad e ⟨true, set⟩ (some path.chars) =
        Loader.link e path.chars fa (byteCodeSetAlloc set (libName stem) fa.base)
          { l with headers := l.headers ++ [dir ++ hfileName stem] } := by
  obtain ⟨names, hnames, hholds⟩ := hpath.names_of_ne hdir path.ne_zero
  obtain ⟨fa, hread, hbase, hslots⟩ := LoadEnv.reads_of_loadable hfile hload
  exact ⟨fa, hbase, hslots, Loader.bcloaderLoad_eq hnames hholds hread set⟩

/-- The set is loaded where the linker has every function. -/
theorem Loader.bcloaderLoad_found {funcs : List {func : ℕ // func ≠ 0}}
    (hfuncs : e.functions path.chars file.names = some funcs) :
    l.bcloaderLoad e ⟨true, true⟩ (some path.chars) =
      .ok (some (BcSet.ofFunctions (libName stem) file.base funcs),
        { bcsList := l.bcsList ++ [BcSet.ofFunctions (libName stem) file.base funcs]
          handles := l.handles ++ [path.chars]
          headers := l.headers ++ [dir ++ hfileName stem] }) := by
  obtain ⟨fa, hbase, hslots, hl⟩ := Loader.bcloaderLoad_loadable hpath hdir hfile hload l true
  rw [hl, Loader.link_found hbase hslots hfuncs]

end LoadableHeader

/-- **Loading a library.** For a library beside a header that is read as it is meant, the
load returns the set of its functions exactly where the linker can load the library and has
every function the header names: named as the file, from the base the header defines, each
function in the place of its prototype. The set is then the last of the list and the library
is open; otherwise neither has changed. Without memory for the array nothing is read; without
memory for the set the load writes through `NULL` as soon as the linker has a function for the
first slot, or has the library and there is none to look for. -/
theorem library_loaded (e : LoadEnv) (path : CText) {dir stem : List UInt8}
    (hpath : LibraryPath path.chars dir stem) (hdir : dir ≠ [47]) {file : HeaderFile}
    (hfile : e.files (dir ++ hfileName stem) = some file.toScriptFile.bytes)
    (hload : file.Loadable) (l : Loader) :
    (∀ funcs, e.functions path.chars file.names = some funcs →
      l.bcloaderLoad e ⟨true, true⟩ (some path.chars) =
        .ok (some (BcSet.ofFunctions (libName stem) file.base funcs),
          { bcsList := l.bcsList ++ [BcSet.ofFunctions (libName stem) file.base funcs]
            handles := l.handles ++ [path.chars]
            headers := l.headers ++ [dir ++ hfileName stem] })) ∧
    (e.functions path.chars file.names = none →
      l.bcloaderLoad e ⟨true, true⟩ (some path.chars) =
        .ok (none, { l with headers := l.headers ++ [dir ++ hfileName stem] })) ∧
    (l.bcloaderLoad e ⟨true, false⟩ (some path.chars) =
      if (e.functions path.chars (file.names.take 1)).isSome then .error .nullDeref
      else .ok (none, { l with headers := l.headers ++ [dir ++ hfileName stem] })) ∧
    ∀ set, l.bcloaderLoad e ⟨false, set⟩ (some path.chars) = .ok (none, l) := by
  refine ⟨fun funcs => Loader.bcloaderLoad_found hpath hdir hfile hload l, fun hnone => ?_, ?_,
    fun set => ?_⟩
  · obtain ⟨fa, -, hslots, hl⟩ := Loader.bcloaderLoad_loadable hpath hdir hfile hload l true
    rw [hl, Loader.link_missing hslots hnone]
  · obtain ⟨fa, -, hslots, hl⟩ := Loader.bcloaderLoad_loadable hpath hdir hfile hload l false
    rw [hl, Loader.link_refused hslots]
  · obtain ⟨names, hnames, -⟩ := hpath.names_of_ne hdir path.ne_zero
    rw [Loader.bcloaderLoad, hnames]
    rfl

/-- The two texts of a small header are those of lines. -/
theorem baseText_chars : ∀ b ∈ literal "#define BC_BASE 0", b ≠ 0 ∧ b ≠ 10 ∧ b ≠ 13 := by
  decide +kernel

theorem baseText_length : (literal "#define BC_BASE 0").length < 1023 := by decide

theorem prototypeText_chars : ∀ b ∈ literal "int f();", b ≠ 0 ∧ b ≠ 10 ∧ b ≠ 13 := by
  decide +kernel

theorem prototypeText_length : (literal "int f();").length < 1023 := by decide

theorem isDecimal_zero : IsDecimal (literal "0") 0 := ⟨by decide, by decide +kernel, by decide⟩

/-- The header of one function, `f`. -/
def plainHeader : HeaderFile where
  lines := [.preprocessor (plainLine "#define BC_BASE 0" .lf baseText_chars baseText_length)
      (by decide +kernel),
    .prototype (plainLine "int f();" .lf prototypeText_chars prototypeText_length) plainPrototype
      (by decide +kernel)]
  base := 0
  define := ⟨_, List.mem_cons_self, literal "0", isDecimal_zero, rfl⟩
  ended := by simp [HeaderLine.line, plainLine]
  last_ne := by simp [HeaderLine.line, plainLine]

theorem plainHeader_loadable : plainHeader.Loadable where
  fits := List.forall_mem_cons.mpr ⟨by decide, List.forall_mem_singleton.mpr (by decide)⟩
  blank l h hl := by simp [plainHeader] at hl
  types l p h hl := by
    obtain ⟨-, rfl⟩ : l = _ ∧ p = plainPrototype := by simpa [plainHeader] using hl
    decide +kernel
  base_last l hl := by
    have hlast : (plainHeader.lines.filter HeaderLine.mentionsBase).getLast? =
        plainHeader.lines.head? := rfl
    rw [hlast] at hl
    obtain rfl := Option.some.inj hl
    decide
  few := by decide

/-- The library beside it. -/
def plainLibrary : CText where
  chars := literal "a/libfm.so"
  ne_zero _ hb := ne_of_mem_of_not_mem hb (by decide)

theorem plainLibrary_path : LibraryPath plainLibrary.chars (literal "a/") (literal "fm") where
  path_eq := by decide
  dir_end := .inr ⟨literal "a", by decide⟩
  stem_ne := by decide
  stem_chars b hb :=
    have hspace : (literal "fm").any isSpace = false := by decide
    ⟨ne_of_mem_of_not_mem hb (by decide), Bool.eq_false_iff.mpr (List.any_eq_false.mp hspace b hb)⟩
  no_so := by decide
  lib_fits := by decide
  header_fits := by decide

/-- The two files, and the function at an address. -/
def plainLoadEnv : LoadEnv where
  files path := if path = literal "a/fm.h" then some plainHeader.toScriptFile.bytes else none
  library path := if path = literal "a/libfm.so" then
      some fun name => if name = literal "f" then some ⟨7, by decide⟩ else none
    else none

theorem plainLoadEnv_header : plainLoadEnv.files (literal "a/" ++ hfileName (literal "fm")) =
    some plainHeader.toScriptFile.bytes := by
  have hpath : literal "a/" ++ hfileName (literal "fm") = literal "a/fm.h" := by decide
  simp only [plainLoadEnv, hpath, if_true]

/-- The library of one function. -/
theorem library_loaded_plain :
    Loader.start.bcloaderLoad plainLoadEnv ⟨true, true⟩ (some plainLibrary.chars) =
      .ok (some (BcSet.ofFunctions (libName (literal "fm")) 0 [⟨7, by decide⟩]),
        { bcsList := [BcSet.ofFunctions (libName (literal "fm")) 0 [⟨7, by decide⟩]]
          handles := [plainLibrary.chars]
          headers := [literal "a/" ++ hfileName (literal "fm")] }) :=
  (library_loaded plainLoadEnv plainLibrary plainLibrary_path (by decide) plainLoadEnv_header
    plainHeader_loadable .start).1 _ (by decide)

/-! ## Runs of loads -/

section Runs

variable {e : LoadEnv}

/-- A loader under calls, with what they were given and what they returned. -/
def loads (e : LoadEnv) :
    Lts.System Loader ((LoadMemory × Option (List UInt8)) × Option BcSet) where
  init l := l = .start
  step l label l' := l.bcloaderLoad e label.1.1 label.1.2 = .ok (label.2, l')

/-- The path of a load that has returned a set. -/
def loadedPath (label : (LoadMemory × Option (List UInt8)) × Option BcSet) :
    Option (List UInt8) :=
  label.2.bind fun _ => label.1.2

/-- **The list and the open libraries.** In every run of loads, of any paths and with
memory given or refused, the list holds the sets the calls have returned, in their order;
the libraries open are those of the calls that have returned one, so that no other is left
open; every set in the list is what its path provides, and a path provides one set. Where
the header of the path is one that is read as it is meant, that set has the name made from
the path, the base of the header, and the addresses the linker has for its names. -/
theorem list_of_loads {ls : List ((LoadMemory × Option (List UInt8)) × Option BcSet)}
    {l : Loader} (h : Lts.Run (loads e) .start ls l) :
    l.bcsList = ls.filterMap Prod.snd ∧ l.handles = ls.filterMap loadedPath ∧
      List.Forall₂ e.Provides l.handles l.bcsList ∧
      (∀ path set set', (path, set) ∈ l.handles.zip l.bcsList →
        (path, set') ∈ l.handles.zip l.bcsList → set = set') ∧
      ∀ path set, (path, set) ∈ l.handles.zip l.bcsList →
        ∀ (dir stem : List UInt8) (file : HeaderFile), LibraryPath path dir stem → dir ≠ [47] →
          (∀ b ∈ path, b ≠ 0) → e.files (dir ++ hfileName stem) = some file.toScriptFile.bytes →
          file.Loadable → set.name = libName stem ∧ set.base = file.base ∧
            ∃ funcs, e.functions path file.names = some funcs ∧
              set.bc = funcs.map Subtype.val := by
  have hrun : l.bcsList = ls.filterMap Prod.snd ∧ l.handles = ls.filterMap loadedPath ∧
      List.Forall₂ e.Provides l.handles l.bcsList := by
    induction h with
    | nil => exact ⟨rfl, rfl, .nil⟩
    | @snoc l l' ls label _ hstep ih =>
      obtain ⟨hlist, hhandles, hprovides⟩ := ih
      obtain ⟨⟨memory, path?⟩, set?⟩ := label
      rw [List.filterMap_append, List.filterMap_append]
      obtain ⟨hset, hlist', hhandles'⟩ | ⟨path, set, hpath, hset, hp, hlist', hhandles'⟩ :=
        Loader.bcloaderLoad_changes hstep
      · dsimp only at hset
        rw [hlist', hhandles', ← hlist, ← hhandles, hset]
        exact ⟨(List.append_nil _).symm, (List.append_nil _).symm, hprovides⟩
      · dsimp only at hset hpath
        rw [hlist', hhandles', ← hlist, ← hhandles, hset, hpath]
        exact ⟨rfl, rfl, List.rel_append hprovides (.cons hp .nil)⟩
  obtain ⟨hlist, hhandles, hprovides⟩ := hrun
  have hzip : ∀ {path set}, (path, set) ∈ l.handles.zip l.bcsList → e.Provides path set :=
    (List.forall₂_iff_zip.mp hprovides).2
  refine ⟨hlist, hhandles, hprovides, fun path set set' hmem hmem' => ?_,
    fun path set hmem dir stem file hpath hdir hchars hfile hload => ?_⟩
  · exact (hzip hmem).unique (hzip hmem')
  · exact (hzip hmem).set_eq hpath hdir hchars hfile hload

end Runs

/-- The library of one function, and then no path. -/
theorem list_of_loads_plain :
    ∃ l, Lts.Run (loads plainLoadEnv) .start
        [((⟨true, true⟩, some plainLibrary.chars),
          some (BcSet.ofFunctions (libName (literal "fm")) 0 [⟨7, by decide⟩])),
          ((⟨true, true⟩, none), none)] l ∧
      l.handles = [plainLibrary.chars] := by
  have hfuncs : plainLoadEnv.functions plainLibrary.chars plainHeader.names =
      some [⟨7, by decide⟩] := by decide
  have hload : (loads plainLoadEnv).step .start ((⟨true, true⟩, some plainLibrary.chars),
      some (BcSet.ofFunctions (libName (literal "fm")) 0 [⟨7, by decide⟩])) _ :=
    Loader.bcloaderLoad_found plainLibrary_path (by decide) plainLoadEnv_header
      plainHeader_loadable .start hfuncs
  have hrun := (Lts.Run.single hload).snoc (l := ((⟨true, true⟩, none), none))
    (Loader.bcloaderLoad_null _)
  exact ⟨_, hrun, (list_of_loads hrun).2.1⟩

end TsmVm
