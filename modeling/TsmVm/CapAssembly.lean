import TsmVm.AppletBounds

/-!
# Assembling the content of a CAP file

The step by which the buffer grows is 256 times the size of the next component, so it is
large enough whatever is free. The components so far are moved by hand, and what is
taken out of the buffer for the AIDs leaves it alone. The loop comes to its end exactly
where the AIDs of the applets can be taken: that step looks at the memory from the fourth
component on, in whatever block the buffer is by then.
-/

namespace TsmVm

/-- The archive holds a component under every name. -/
def zipOf (component : List UInt8 → List UInt8) : List UInt8 → ZipEntry := fun name =>
  .file (component name)

/-- In front of the iteration for a component the buffer holds those before it; it is
made large enough, keeps them, and has room for what `zip_fread` stores. -/
def KeepsComponents (junk : ℕ → UInt8) (content : CapBuffer) (before bytes : List UInt8) : Prop :=
  content.dataLen = before.length ∧ content.buffer.take before.length = before ∧
  ∃ grown, growContent junk content bytes.length = .ok grown ∧
    grown.dataLen = before.length ∧ grown.buffer.take before.length = before ∧
    grown.bufSize = grown.buffer.length ∧ (bytes.length : ℤ) ≤ grown.bufSize - grown.dataLen ∧
    ∃ read, zipFread grown bytes = .ok read

/-- The content is assembled: every iteration is reached, with the components before it
kept and room for its own, and in the end the buffer holds all of them in the order of
`sub_cap_name`. -/
structure Assembles (junk : ℕ → ℕ → UInt8) (hash : CapBuffer → CapBuffer → CapBuffer)
    (component : List UInt8 → List UInt8) (cap : CapInfo) : Prop where
  iterations : ∀ (i : ℕ) (name : List UInt8), subCapName[i]? = some name →
    ∃ cap', componentLoop junk (zipOf component) (subCapName.take i) 0 (startCap junk cap) =
        .ok (.fmOk, cap') ∧
      KeepsComponents (junk (i + 1)) cap'.content ((subCapName.take i).flatMap component)
        (component name)
  content : ∃ cap', caploaderLoad junk hash (fun _ => some (zipOf component)) cap =
      .ok (.fmOk, cap') ∧
    cap'.content.dataLen = (subCapName.flatMap component).length ∧
    cap'.content.buffer.take cap'.content.dataLen.toNat = subCapName.flatMap component

/-! ## The block the buffer is in -/

/-- A block of the buffer: its number among the fresh ones, and its size. -/
structure ContentBlock where
  number : ℕ
  size : ℕ

namespace ContentBlock

/-- The first block. -/
def first : ContentBlock := ⟨0, 36864⟩

/-- The block for component `i` of some size, behind `used` bytes: the next one if there
is not enough free. -/
def next (block : ContentBlock) (i used size : ℕ) : ContentBlock :=
  if (block.size - used) % 18446744073709551616 < size then
    ⟨i + 1, block.size + (size / 4 + 1) * 1024⟩
  else block

/-- The block behind some components, from number `i` on. -/
def behind (block : ContentBlock) : ℕ → ℕ → List (List UInt8) → ContentBlock
  | _, _, [] => block
  | i, used, bytes :: rest =>
    (block.next i used bytes.length).behind (i + 1) (used + bytes.length) rest

/-- What a block still holds of its own behind `used` bytes. -/
def free (block : ContentBlock) (junk : ℕ → ℕ → UInt8) (used : ℕ) : List UInt8 :=
  (fmshMalloc (junk block.number) block.size).drop used

/-- What is free behind `used` bytes and the components stored behind them. -/
def freeBehind (block : ContentBlock) (junk : ℕ → ℕ → UInt8) (i used : ℕ)
    (stored : List (List UInt8)) : List UInt8 :=
  (block.behind i used stored).free junk (used + stored.flatten.length)

variable {block : ContentBlock} {i used : ℕ}

/-- The component that is stored first uses its part of the block. -/
theorem freeBehind_cons (junk : ℕ → ℕ → UInt8) (bytes : List UInt8) (rest : List (List UInt8)) :
    block.freeBehind junk i used (bytes :: rest) =
      (block.next i used bytes.length).freeBehind junk (i + 1) (used + bytes.length) rest := by
  rw [freeBehind, freeBehind, behind, List.flatten_cons, List.length_append, Nat.add_assoc]

theorem freeBehind_singleton (junk : ℕ → ℕ → UInt8) (bytes : List UInt8) :
    block.freeBehind junk i used [bytes] =
      (block.next i used bytes.length).free junk (used + bytes.length) :=
  freeBehind_cons junk bytes []

/-- The step is large enough. -/
theorem le_next_size (i size : ℕ) (hused : used ≤ block.size) :
    used + size ≤ (block.next i used size).size := by
  unfold next
  split
  · dsimp only
    omega
  · omega

end ContentBlock

/-- The memory from the component of the applets on, as the loops over the applets find
it. -/
def appletMemory (junk : ℕ → ℕ → UInt8) (component : List UInt8 → List UInt8) : List UInt8 :=
  component (literal "Applet.cap") ++
    ContentBlock.first.freeBehind junk 0 0 ((subCapName.take 4).map component)

/-- A buffer that holds some components at the front of a block. -/
structure CapBuffer.Holds (junk : ℕ → ℕ → UInt8) (block : ContentBlock) (content : CapBuffer)
    (done : List UInt8) : Prop where
  buffer_eq : content.buffer = done ++ block.free junk done.length
  dataLen_eq : content.dataLen = done.length
  bufSize_eq : content.bufSize = block.size
  fits : done.length ≤ block.size
  /-- It never becomes smaller than it is at first. -/
  large : 36864 ≤ block.size

section Content

variable {junk : ℕ → ℕ → UInt8} {block : ContentBlock} {content : CapBuffer}
  {done bytes : List UInt8}

theorem ContentBlock.length_free (used : ℕ) :
    (block.free junk used).length = block.size - used := by
  rw [free, List.length_drop, length_fmshMalloc]

namespace CapBuffer.Holds

theorem length_buffer (h : content.Holds junk block done) :
    content.buffer.length = block.size := by
  have hfits := h.fits
  rw [h.buffer_eq, List.length_append, block.length_free]
  omega

theorem take_eq (h : content.Holds junk block done) :
    content.buffer.take done.length = done := by
  rw [h.buffer_eq, List.take_left]

/-- What is behind the components, in a buffer that starts with them. -/
theorem drop_eq (h : content.Holds junk block done) (behind : List UInt8) :
    (done ++ behind).drop content.dataLen.toNat = behind := by
  rw [h.dataLen_eq, Int.toNat_natCast, List.drop_left]

/-- The buffer is in the block that is large enough for the next component, and holds what
it held. -/
theorem grow (h : content.Holds junk block done) (i size : ℕ) :
    ∃ grown, growContent (junk (i + 1)) content size = .ok grown ∧
      grown.Holds junk (block.next i done.length size) done := by
  have hlen := h.length_buffer
  have hfits := h.fits
  have hlarge := h.large
  have hsize := h.bufSize_eq
  have hdata := h.dataLen_eq
  have hfree : (content.bufSize - content.dataLen) % 18446744073709551616 =
      ((block.size - done.length) % 18446744073709551616 : ℕ) := by
    omega
  unfold growContent ContentBlock.next
  rw [hfree]
  by_cases hroom : (block.size - done.length) % 18446744073709551616 < size
  · rw [if_pos (by exact_mod_cast hroom), if_pos hroom]
    dsimp only
    have hn : content.bufSize + ((size : ℤ) / 4 + 1) * 1024 =
        (block.size + (size / 4 + 1) * 1024 : ℕ) := by
      omega
    have hread : memRead content.buffer 0 content.dataLen = .ok done := by
      rw [hdata, memRead_front (by omega), h.take_eq]
    have hblock := length_fmshMalloc (junk (i + 1)) (block.size + (size / 4 + 1) * 1024)
    rw [hn, Int.toNat_natCast, hread, ok_bind, ← Nat.cast_zero, memWrite_natCast, Nat.zero_add,
      if_pos (.inr ⟨by omega, le_rfl⟩), ok_bind]
    refine ⟨_, rfl, rfl, hdata, rfl, ?_, ?_⟩
    · dsimp only
      omega
    · dsimp only
      omega
  · rw [if_neg (by exact_mod_cast hroom), if_neg hroom]
    exact ⟨content, rfl, h⟩

/-- Where there is room a component is stored behind the others. -/
theorem fread (h : content.Holds junk block done)
    (hroom : done.length + bytes.length ≤ block.size) :
    zipFread content bytes = .ok { content with
      buffer := done ++ (bytes ++ block.free junk (done.length + bytes.length)) } := by
  have hlen := h.length_buffer
  have hold : ((block.free junk done.length).take bytes.length).length = bytes.length := by
    rw [List.length_take, block.length_free]
    omega
  have hsplit : content.buffer = done ++ ((block.free junk done.length).take bytes.length ++
      block.free junk (done.length + bytes.length)) := by
    rw [h.buffer_eq, ContentBlock.free, ContentBlock.free, ← List.drop_drop,
      List.take_append_drop]
  have hwrite := memWrite_span done (block.free junk (done.length + bytes.length)) hold
    (show done.length + bytes.length ≤ content.buffer.length by omega)
    (le_of_eq (congrArg List.length hsplit))
  rw [← hsplit] at hwrite
  unfold zipFread
  rw [h.dataLen_eq, hwrite, ok_bind]
  rfl

/-- The length is moved behind the component that has been stored. -/
theorem stored (h : content.Holds junk block done)
    (hroom : done.length + bytes.length ≤ block.size) :
    CapBuffer.Holds junk block
      { content with buffer := done ++ (bytes ++ block.free junk (done.length + bytes.length)),
                     dataLen := content.dataLen + bytes.length } (done ++ bytes) where
  buffer_eq := by
    dsimp only
    rw [List.length_append, List.append_assoc]
  dataLen_eq := by
    dsimp only
    rw [h.dataLen_eq, List.length_append]
    push_cast
    rfl
  bufSize_eq := h.bufSize_eq
  fits := by
    rw [List.length_append]
    exact hroom
  large := h.large

end CapBuffer.Holds

/-- The header component leaves enough of the buffer for any length of an AID. -/
theorem getPkgAid_ok (junk : ℕ → UInt8) {buffer : List UInt8} (h : 36864 ≤ buffer.length) :
    ∃ pkgAid, getPkgAid junk buffer = .ok pkgAid := by
  obtain ⟨aidLen, hlen⟩ := exists_byteAt (show 12 < buffer.length by omega)
  have hlt := aidLen.toNat_lt
  have hread : memRead buffer 13 aidLen.toNat = .ok ((buffer.drop 13).take aidLen.toNat) :=
    (memRead_natCast buffer 13 aidLen.toNat).trans
      (if_pos (by rw [List.length_drop]; omega))
  have haid : ((buffer.drop 13).take aidLen.toNat).length = aidLen.toNat := by
    rw [List.length_take, List.length_drop]
    omega
  obtain ⟨des, hdes⟩ := memWrite_block haid (length_fmshMalloc junk aidLen.toNat).ge
  unfold getPkgAid
  rw [show byteAt buffer 12 = .ok aidLen from hlen, ok_bind, hread, ok_bind]
  dsimp only
  rw [length_fmshMalloc, hdes]
  exact ⟨_, rfl⟩

end Content

/-! ## The loop -/

section Loop

variable {junk : ℕ → ℕ → UInt8} {block : ContentBlock} {cap cap' : CapInfo}
  {done bytes : List UInt8} {i : ℕ} {component : List UInt8 → List UInt8}
  {names : List (List UInt8)} {st : CapStatus}

/-- The AIDs of the applets are taken out of the fourth component, and of no other. -/
structure TakesAids (junk : ℕ → ℕ → UInt8) (i : ℕ) (mem : List UInt8) (before after : CapBuffer) :
    Prop where
  applet : i = 3 → getAppletAid (junk 11) mem before = .ok after
  other : i ≠ 3 → after = before

/-- What an iteration does, if it comes to its end. -/
theorem loadComponent_holds (h : cap.content.Holds junk block done)
    (hok : loadComponent junk cap i bytes = .ok cap') :
    cap'.content.Holds junk (block.next i done.length bytes.length) (done ++ bytes) ∧
      TakesAids junk i (bytes ++ (block.next i done.length bytes.length).free junk
        (done.length + bytes.length)) cap.appletAid cap'.appletAid := by
  obtain ⟨grown, hgrow, hholds⟩ := h.grow i bytes.length
  have hroom := ContentBlock.le_next_size i bytes.length h.fits
  have hread := hholds.fread hroom
  unfold loadComponent at hok
  rw [hgrow, ok_bind, hread, ok_bind] at hok
  obtain ⟨pkgAid, -, hok⟩ := bind_eq_ok.mp hok
  obtain ⟨appletAid, happlet, hok⟩ := bind_eq_ok.mp hok
  obtain rfl := Except.ok.inj hok
  refine ⟨hholds.stored hroom, ?_, ?_⟩
  · rintro rfl
    rw [if_pos rfl] at happlet
    dsimp only at happlet
    rwa [hholds.drop_eq] at happlet
  · intro hi
    rw [if_neg hi] at happlet
    exact (Except.ok.inj happlet).symm

/-- It does exactly where the AIDs of the applets can be taken. -/
theorem loadComponent_ok_iff (h : cap.content.Holds junk block done) :
    (∃ cap', loadComponent junk cap i bytes = .ok cap') ↔
      (i = 3 → AidsFit (bytes ++ (block.next i done.length bytes.length).free junk
        (done.length + bytes.length))) := by
  constructor
  · rintro ⟨cap', hok⟩ hi
    obtain ⟨-, htakes⟩ := loadComponent_holds h hok
    exact (getAppletAid_ok_iff _ _ _).mp ⟨_, htakes.applet hi⟩
  · intro hfit
    obtain ⟨grown, hgrow, hholds⟩ := h.grow i bytes.length
    have hroom := ContentBlock.le_next_size i bytes.length h.fits
    have hread := hholds.fread hroom
    have hlarge := hholds.large
    obtain ⟨pkgAid, hpkg⟩ : ∃ r, (if i = 0 then getPkgAid (junk 10)
        (done ++ (bytes ++ (block.next i done.length bytes.length).free junk
          (done.length + bytes.length))) else .ok cap.pkgAid : Res CapBuffer) = .ok r := by
      split
      · refine getPkgAid_ok _ ?_
        rw [List.length_append, List.length_append, ContentBlock.length_free]
        omega
      · exact ⟨_, rfl⟩
    obtain ⟨appletAid, haid⟩ : ∃ r, (if i = 3 then getAppletAid (junk 11)
        ((done ++ (bytes ++ (block.next i done.length bytes.length).free junk
          (done.length + bytes.length))).drop grown.dataLen.toNat) cap.appletAid
        else .ok cap.appletAid : Res CapBuffer) = .ok r := by
      split
      · rw [hholds.drop_eq]
        exact (getAppletAid_ok_iff _ _ _).mpr (hfit ‹_›)
      · exact ⟨_, rfl⟩
    unfold loadComponent
    rw [hgrow, ok_bind, hread, ok_bind]
    dsimp only
    rw [hpkg, ok_bind, haid, ok_bind]
    exact ⟨_, rfl⟩

/-- What the loop does, if it comes to its end. -/
theorem componentLoop_holds (h : cap.content.Holds junk block done)
    (hok : componentLoop junk (zipOf component) names i cap = .ok (st, cap')) :
    st = .fmOk ∧ ∃ block', cap'.content.Holds junk block' (done ++ names.flatMap component) := by
  induction names generalizing i cap block done with
  | nil =>
    obtain ⟨rfl, rfl⟩ := Prod.mk.inj (Except.ok.inj hok)
    exact ⟨rfl, block, by simpa using h⟩
  | cons name names ih =>
    obtain ⟨cap₁, hload, hok⟩ := bind_eq_ok.mp hok
    obtain ⟨hst, block', hholds⟩ := ih (loadComponent_holds h hload).1 hok
    refine ⟨hst, block', ?_⟩
    rwa [List.append_assoc, ← List.flatMap_cons] at hholds

/-- It comes to its end exactly where the AIDs of the applets can be taken. -/
theorem componentLoop_ok_iff (h : cap.content.Holds junk block done) :
    (∃ r, componentLoop junk (zipOf component) names i cap = .ok r) ↔
      ∀ j name, names[j]? = some name → i + j = 3 → AidsFit (component name ++
        block.freeBehind junk i done.length ((names.take (j + 1)).map component)) := by
  induction names generalizing i cap block done with
  | nil => simp [componentLoop]
  | cons name names ih =>
    change (∃ r, (loadComponent junk cap i (component name) >>= fun cap =>
      componentLoop junk (zipOf component) names (i + 1) cap) = .ok r) ↔ _
    rw [exists_bind_ok]
    constructor
    · rintro ⟨cap₁, hload, hloop⟩ j name' hname hj
      cases j with
      | zero =>
        obtain rfl : name = name' := by simpa using hname
        have hfit := (loadComponent_ok_iff h).mp ⟨cap₁, hload⟩ hj
        rwa [← ContentBlock.freeBehind_singleton] at hfit
      | succ j =>
        have hfit := (ih (loadComponent_holds h hload).1).mp hloop j name' (by simpa using hname)
          (by omega)
        rwa [List.length_append, ← ContentBlock.freeBehind_cons] at hfit
    · intro hfit
      obtain ⟨cap₁, hload⟩ : ∃ cap₁, loadComponent junk cap i (component name) = .ok cap₁ := by
        refine (loadComponent_ok_iff h).mpr fun hi => ?_
        rw [← ContentBlock.freeBehind_singleton]
        exact hfit 0 name rfl hi
      refine ⟨cap₁, hload, (ih (loadComponent_holds h hload).1).mpr fun j name' hname hj => ?_⟩
      rw [List.length_append, ← ContentBlock.freeBehind_cons]
      exact hfit (j + 1) name' (by simpa using hname) (by omega)

theorem startCap_holds (junk : ℕ → ℕ → UInt8) (cap : CapInfo) :
    (startCap junk cap).content.Holds junk .first [] where
  buffer_eq := by
    simp only [startCap, ContentBlock.free, ContentBlock.first, List.nil_append, List.length_nil,
      List.drop_zero]
  dataLen_eq := rfl
  bufSize_eq := rfl
  fits := Nat.zero_le _
  large := le_rfl

/-- The memory of the fourth component, as the loop from the start finds it. -/
theorem applet_iff {p : List UInt8 → Prop} :
    (∀ j name, subCapName[j]? = some name → 0 + j = 3 → p (component name ++
      ContentBlock.first.freeBehind junk 0 0 ((subCapName.take (j + 1)).map component))) ↔
      p (appletMemory junk component) := by
  constructor
  · intro h
    exact h 3 (literal "Applet.cap") rfl rfl
  · intro h j name hname hj
    obtain rfl : j = 3 := by omega
    obtain rfl : literal "Applet.cap" = name := Option.some.inj hname
    exact h

end Loop

section Assembly

variable {junk : ℕ → ℕ → UInt8} {hash : CapBuffer → CapBuffer → CapBuffer}
  {component : List UInt8 → List UInt8} {cap cap' : CapInfo} {i : ℕ} {st : CapStatus}

/-- Where the AIDs can be taken every iteration is reached. -/
theorem AidsFit.reaches (h : AidsFit (appletMemory junk component)) (cap : CapInfo) (i : ℕ) :
    ∃ cap', componentLoop junk (zipOf component) (subCapName.take i) 0 (startCap junk cap) =
      .ok (.fmOk, cap') := by
  have hfit : ∀ j name, (subCapName.take i)[j]? = some name → 0 + j = 3 → AidsFit (component name ++
      ContentBlock.first.freeBehind junk 0 0 (((subCapName.take i).take (j + 1)).map component)) := by
    intro j name hname hj
    have hlt : j < i := by
      by_contra hge
      rw [List.getElem?_take_eq_none (by omega)] at hname
      cases hname
    rw [List.getElem?_take_of_lt hlt] at hname
    rw [List.take_take, min_eq_left (by omega)]
    exact applet_iff.mpr h j name hname hj
  obtain ⟨⟨st, cap'⟩, hloop⟩ := (componentLoop_ok_iff (startCap_holds junk cap)).mpr hfit
  obtain ⟨rfl, -⟩ := componentLoop_holds (startCap_holds junk cap) hloop
  exact ⟨cap', hloop⟩

/-- An iteration that is reached keeps the components, and has room for its own. -/
theorem keepsComponents
    (hloop : componentLoop junk (zipOf component) (subCapName.take i) 0 (startCap junk cap) =
      .ok (st, cap')) (bytes : List UInt8) :
    KeepsComponents (junk (i + 1)) cap'.content ((subCapName.take i).flatMap component) bytes := by
  obtain ⟨-, block, hholds⟩ := componentLoop_holds (startCap_holds junk cap) hloop
  rw [List.nil_append] at hholds
  obtain ⟨grown, hgrow, hgrown⟩ := hholds.grow i bytes.length
  have hroom := ContentBlock.le_next_size i bytes.length hholds.fits
  have hdata := hgrown.dataLen_eq
  have hsize := hgrown.bufSize_eq
  have hlen := hgrown.length_buffer
  exact ⟨hholds.dataLen_eq, hholds.take_eq, grown, hgrow, hdata, hgrown.take_eq, by omega, by omega,
    _, hgrown.fread hroom⟩

/-- What is assembled has gone through the loops over the applets. -/
theorem Assembles.aidsFit (h : Assembles junk hash component cap) :
    AidsFit (appletMemory junk component) := by
  obtain ⟨cap', hload, -⟩ := h.content
  obtain ⟨r, hloop, -⟩ := bind_eq_ok.mp hload
  exact applet_iff.mp ((componentLoop_ok_iff (startCap_holds junk cap)).mp ⟨r, hloop⟩)

/-- Where these stay inside their blocks the content is assembled. -/
theorem AidsFit.assembles (h : AidsFit (appletMemory junk component)) :
    Assembles junk hash component cap where
  iterations := by
    intro i name _
    obtain ⟨cap', hloop⟩ := h.reaches cap i
    exact ⟨cap', hloop, keepsComponents hloop (component name)⟩
  content := by
    obtain ⟨loaded, hloop⟩ := h.reaches cap subCapName.length
    rw [List.take_length] at hloop
    obtain ⟨-, block, hholds⟩ := componentLoop_holds (startCap_holds junk cap) hloop
    rw [List.nil_append] at hholds
    refine ⟨{ loaded with hash := hash loaded.content loaded.hash }, ?_, hholds.dataLen_eq, ?_⟩
    · unfold caploaderLoad
      dsimp only
      rw [hloop, ok_bind]
      rfl
    · dsimp only
      rw [hholds.dataLen_eq, Int.toNat_natCast, hholds.take_eq]

end Assembly

/-- **Assembling the content.** The buffer is made large enough for every component, keeps
those before it, and holds all of them in the end, exactly where the loops over the applets
stay inside the memory they find and the block for the AIDs. -/
theorem assembles_iff (junk : ℕ → ℕ → UInt8) (hash : CapBuffer → CapBuffer → CapBuffer)
    (component : List UInt8 → List UInt8) (cap : CapInfo) :
    Assembles junk hash component cap ↔ AidsFit (appletMemory junk component) :=
  ⟨Assembles.aidsFit, AidsFit.assembles⟩

/-- A CAP file that has not been loaded. -/
def emptyCap : CapInfo :=
  ⟨[], ⟨[], 0, 0⟩, ⟨[], 0, 0⟩, ⟨[], 0, 0⟩, ⟨[], 0, 0⟩⟩

/-- An `Applet.cap` with the AID `A000000001`. -/
def oneApplet : List UInt8 := [3, 0, 9, 1, 5, 0xA0, 0, 0, 0, 1, 0, 1]

/-- With one applet the content is assembled. -/
theorem assembles_iff_oneApplet :
    Assembles (fun _ _ => 0) (fun _ hash => hash) (fun _ => oneApplet) emptyCap := by
  refine (assembles_iff _ _ _ _).mpr (aidsFit_one rfl ?_)
  change 9 < (oneApplet ++ _).length
  rw [List.length_append]
  exact Nat.lt_add_right _ (by decide)

/-- An `Applet.cap` with the AIDs `A000000001`, `A000000002` and `A000000003`. -/
def threeAids : List UInt8 :=
  [3, 0, 25, 3, 5, 0xA0, 0, 0, 0, 1, 0, 1, 5, 0xA0, 0, 0, 0, 2, 0, 2, 5, 0xA0, 0, 0, 0, 3, 0, 3]

/-- The first loop comes to 13 bytes for them, whatever is behind: it takes the last byte of
the third AID for a length. -/
theorem threeAids_not_fit (behind : List UInt8) : ¬ AidsFit (threeAids ++ behind) := by
  intro h
  have hroom := h.room
  have hcount : appletCount (threeAids ++ behind) = 3 := rfl
  have hsum : (sumAfter (threeAids ++ behind) 3).2.toNat = 13 := rfl
  have hlengths : ∑ k ∈ Finset.range 3, (lengthAt (threeAids ++ behind)
      (appletAt (threeAids ++ behind) k)).toNat = 15 := rfl
  rw [hcount, hsum, hlengths] at hroom
  omega

/-- Three AIDs of five bytes do not fit their block. -/
theorem threeAids_not_assembled : ¬ ∀ (junk : ℕ → ℕ → UInt8)
    (hash : CapBuffer → CapBuffer → CapBuffer) (component : List UInt8 → List UInt8)
    (cap : CapInfo), Assembles junk hash component cap := by
  intro h
  exact threeAids_not_fit _
    (h (fun _ _ => 0) (fun _ hash => hash) (fun _ => threeAids) emptyCap).aidsFit

end TsmVm
