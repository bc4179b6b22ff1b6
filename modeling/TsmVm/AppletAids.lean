import TsmVm.CapAssembly

/-!
# The AIDs of the applets

Two loops go over the entries of `Applet.cap`. The first adds up the lengths in a byte
and moves by the sum in place of the length; the second copies the AIDs one behind the
other, but what is recorded in the end is the length of the last. The two agree where
every AID but the last is empty.
-/

namespace TsmVm

/-- An entry of `Applet.cap`. -/
structure AppletEntry where
  aid : List UInt8
  /-- The length is one byte. -/
  aid_length : aid.length < 256
  /-- The two bytes behind the AID. -/
  first : UInt8
  second : UInt8

/-- The entry as it lies in the component. -/
def AppletEntry.bytes (e : AppletEntry) : List UInt8 :=
  UInt8.ofNat e.aid.length :: (e.aid ++ [e.first, e.second])

/-- The component `Applet.cap`. -/
structure AppletComponent where
  /-- What stands in front of the number of applets. -/
  head : List UInt8
  head_length : head.length = 3
  entries : List AppletEntry
  /-- Their number is one byte. -/
  few : entries.length < 256
  /-- What may follow the entries. -/
  tail : List UInt8

namespace AppletComponent

variable (c : AppletComponent)

/-- The component as it lies in the archive. -/
def bytes : List UInt8 :=
  c.head ++ UInt8.ofNat c.entries.length :: (c.entries.flatMap AppletEntry.bytes ++ c.tail)

/-- The AIDs of the applets, in their order. -/
def aids : List UInt8 := c.entries.flatMap AppletEntry.aid

/-- Every AID but the last is empty. -/
def LastOnly : Prop := ∀ e ∈ c.entries.dropLast, e.aid = []

end AppletComponent

/-- The AIDs are loaded, whatever archive the component is part of and whatever fresh
blocks hold; and they are taken from the component even where nothing lies behind it. -/
structure AidsLoaded (c : AppletComponent) : Prop where
  load : ∀ (junk : ℕ → ℕ → UInt8) (hash : CapBuffer → CapBuffer → CapBuffer)
    (component : List UInt8 → List UInt8) (cap : CapInfo),
    component (literal "Applet.cap") = c.bytes →
      ∃ cap', caploaderLoad junk hash (fun _ => some (zipOf component)) cap =
          .ok (.fmOk, cap') ∧
        cap'.appletAid.dataLen = c.aids.length ∧
        cap'.appletAid.buffer.take c.aids.length = c.aids
  within : ∀ (junk : ℕ → UInt8) (appletAid : CapBuffer),
    ∃ r, getAppletAid junk c.bytes appletAid = .ok r

/-! ## The two loops -/

section Loops

variable {front behind des : List UInt8} {e : AppletEntry} {entries : List AppletEntry} {pos : ℕ}
  {adiLen : UInt8}

theorem AppletEntry.toNat_length (e : AppletEntry) :
    (UInt8.ofNat e.aid.length).toNat = e.aid.length := UInt8.toNat_ofNat_of_lt' e.aid_length

theorem AppletEntry.length_bytes (e : AppletEntry) : e.bytes.length = e.aid.length + 3 := by
  simp [AppletEntry.bytes]

/-- The length in front of an AID. -/
theorem byteAt_entry (front : List UInt8) (e : AppletEntry) (behind : List UInt8) :
    byteAt (front ++ (e.bytes ++ behind)) front.length = .ok (UInt8.ofNat e.aid.length) := by
  refine byteAt_natCast ?_
  rw [List.getElem?_append_right le_rfl, Nat.sub_self]
  rfl

/-- The AID. -/
theorem memRead_entry (front : List UInt8) (e : AppletEntry) (behind : List UInt8) :
    memRead (front ++ (e.bytes ++ behind)) (front.length + 1 : ℕ) e.aid.length = .ok e.aid := by
  have hdrop : (front ++ (e.bytes ++ behind)).drop (front.length + 1) =
      e.aid ++ ([e.first, e.second] ++ behind) := by
    rw [← List.drop_drop, List.drop_left, AppletEntry.bytes, List.cons_append, List.append_assoc]
    rfl
  rw [memRead_natCast, hdrop, if_pos (by rw [List.length_append]; omega), List.take_left]

/-- Where the sum stays zero the first loop finds the length of the last AID. -/
theorem aidLenLoop_eq (front behind : List UInt8) (entries : List AppletEntry)
    (h : ∀ e ∈ entries.dropLast, e.aid = []) :
    aidLenLoop (front ++ (entries.flatMap AppletEntry.bytes ++ behind)) entries.length
        front.length 0 =
      .ok (UInt8.ofNat (entries.flatMap AppletEntry.aid).length) := by
  induction entries generalizing front with
  | nil => rfl
  | cons e entries ih =>
    rw [List.flatMap_cons, List.flatMap_cons, List.append_assoc, List.length_cons, aidLenLoop,
      byteAt_entry, ok_bind]
    dsimp only
    rw [UInt8.zero_add]
    cases entries with
    | nil => simp [aidLenLoop]
    | cons e' entries =>
      have hnil : e.aid = [] := h e (by simp)
      have hfront : front.length + ((UInt8.ofNat e.aid.length).toNat + 3) =
          (front ++ e.bytes).length := by
        rw [List.length_append, e.length_bytes, e.toNat_length]
      have hzero : UInt8.ofNat e.aid.length = 0 := by
        rw [hnil]
        rfl
      have hrest : ∀ d ∈ (e' :: entries).dropLast, d.aid = [] := fun d hd =>
        h d (by simp [hd])
      have hih := ih (front ++ e.bytes) hrest
      rw [hfront, hzero, ← List.append_assoc front, hih, hnil, List.nil_append]

/-- The second loop copies the AIDs over as many bytes. -/
theorem aidCopyLoop_eq (front behind : List UInt8) (entries : List AppletEntry)
    (done old rest : List UInt8) (hold : old.length = (entries.flatMap AppletEntry.aid).length)
    (adiLen : UInt8) :
    ∃ last, aidCopyLoop (front ++ (entries.flatMap AppletEntry.bytes ++ behind)) entries.length
        front.length done.length adiLen (done ++ (old ++ rest)) =
      .ok (last, done ++ (entries.flatMap AppletEntry.aid ++ rest)) := by
  induction entries generalizing front done old adiLen with
  | nil =>
    obtain rfl : old = [] := List.length_eq_zero_iff.mp hold
    exact ⟨adiLen, rfl⟩
  | cons e entries ih =>
    have hfront : front.length + (e.aid.length + 3) = (front ++ e.bytes).length := by
      rw [List.length_append, e.length_bytes]
    rw [List.flatMap_cons, List.length_append] at hold
    have hsplit : done ++ (old ++ rest) =
        done ++ (old.take e.aid.length ++ (old.drop e.aid.length ++ rest)) := by
      rw [← List.append_assoc (old.take _), List.take_append_drop]
    have hlen : (done ++ (old ++ rest)).length = done.length + (old.length + rest.length) := by
      rw [List.length_append, List.length_append]
    have hwrite : memWrite (done ++ (old ++ rest)) (done ++ (old ++ rest)).length done.length
        e.aid = .ok (done ++ e.aid ++ (old.drop e.aid.length ++ rest)) := by
      rw [List.append_assoc done, hlen, hsplit]
      refine memWrite_span done _ (List.length_take_of_le (by omega)) (by omega) ?_
      rw [← hsplit, hlen]
    obtain ⟨last, hlast⟩ := ih (front ++ e.bytes) (done ++ e.aid) (old.drop e.aid.length)
      (by rw [List.length_drop]; omega) (UInt8.ofNat e.aid.length)
    have hpos : (done ++ e.aid).length = done.length + e.aid.length := List.length_append
    rw [List.append_assoc front, hpos,
      List.append_assoc done e.aid (entries.flatMap AppletEntry.aid ++ rest)] at hlast
    refine ⟨last, ?_⟩
    rw [List.flatMap_cons, List.append_assoc, List.length_cons, aidCopyLoop, byteAt_entry, ok_bind,
      e.toNat_length, memRead_entry, ok_bind, hwrite, ok_bind, hfront, List.flatMap_cons,
      List.append_assoc e.aid]
    exact hlast

/-- Wherever the second loop comes to its end it has the length of the last AID. -/
theorem aidCopyLoop_last (front behind : List UInt8) (entries : List AppletEntry)
    {r : UInt8 × List UInt8}
    (hok : aidCopyLoop (front ++ (entries.flatMap AppletEntry.bytes ++ behind)) entries.length
      front.length pos adiLen des = .ok r) :
    r.1 = (entries.getLast?.map fun e => UInt8.ofNat e.aid.length).getD adiLen := by
  induction entries generalizing front pos adiLen des with
  | nil =>
    obtain rfl := Except.ok.inj hok
    rfl
  | cons e entries ih =>
    have hfront : front.length + (e.aid.length + 3) = (front ++ e.bytes).length := by
      rw [List.length_append, e.length_bytes]
    rw [List.flatMap_cons, List.append_assoc, List.length_cons, aidCopyLoop, byteAt_entry, ok_bind,
      e.toNat_length, memRead_entry, ok_bind] at hok
    obtain ⟨des', -, hok⟩ := bind_eq_ok.mp hok
    rw [hfront, ← List.append_assoc front] at hok
    rw [ih (front ++ e.bytes) hok, List.getLast?_cons]
    cases entries.getLast? <;> rfl

end Loops

/-! ## The component -/

namespace AppletComponent

variable {c : AppletComponent}

theorem byteAt_bytes (c : AppletComponent) (behind : List UInt8) :
    byteAt (c.bytes ++ behind) 3 = .ok (UInt8.ofNat c.entries.length) := by
  refine byteAt_natCast (i := 3) ?_
  rw [bytes, List.append_assoc, List.getElem?_append_right c.head_length.le, c.head_length]
  rfl

/-- The entries start behind four bytes. -/
theorem bytes_split (c : AppletComponent) (behind : List UInt8) :
    ∃ front : List UInt8, front.length = 4 ∧
      c.bytes ++ behind = front ++ (c.entries.flatMap AppletEntry.bytes ++ (c.tail ++ behind)) := by
  refine ⟨c.head ++ [UInt8.ofNat c.entries.length], ?_, ?_⟩
  · rw [List.length_append, c.head_length]
    rfl
  · simp [bytes]

/-- The length of the last AID. -/
def lastLength (c : AppletComponent) : ℕ :=
  (c.entries.getLast?.map fun e => e.aid.length).getD 0

/-- It is the length of all of them exactly where the others are empty. -/
theorem lastOnly_iff_length (c : AppletComponent) : c.LastOnly ↔ c.aids.length = c.lastLength := by
  unfold LastOnly aids lastLength
  rcases List.eq_nil_or_concat c.entries with hnil | ⟨entries, e, hentries⟩
  · rw [hnil]
    simp
  · have hsplit : (entries ++ [e]).flatMap AppletEntry.aid =
        entries.flatMap AppletEntry.aid ++ e.aid := by simp
    rw [hentries, List.concat_eq_append, List.dropLast_concat, hsplit, List.length_append,
      List.getLast?_concat, Option.map_some, Option.getD_some, Nat.add_eq_right,
      List.length_eq_zero_iff, List.flatMap_eq_nil_iff]

theorem lastLength_lt (c : AppletComponent) : c.lastLength < 256 := by
  unfold lastLength
  cases c.entries.getLast? with
  | none => decide
  | some e => exact e.aid_length

/-- Wherever the AIDs are taken the length of the last one is recorded. -/
theorem dataLen_of_getAppletAid {junk : ℕ → UInt8} {behind : List UInt8}
    {appletAid r : CapBuffer} (hok : getAppletAid junk (c.bytes ++ behind) appletAid = .ok r) :
    r.dataLen = c.lastLength := by
  obtain ⟨front, hfront, hbytes⟩ := c.bytes_split behind
  have hcnt : (UInt8.ofNat c.entries.length).toNat = c.entries.length :=
    UInt8.toNat_ofNat_of_lt' c.few
  unfold getAppletAid at hok
  rw [c.byteAt_bytes, ok_bind, hcnt] at hok
  obtain ⟨adiLen, hlens, hok⟩ := bind_eq_ok.mp hok
  obtain ⟨copied, hcopy, hok⟩ := bind_eq_ok.mp hok
  obtain rfl := Except.ok.inj hok
  rw [hbytes, ← hfront] at hcopy
  have hlast := aidCopyLoop_last front (c.tail ++ behind) c.entries hcopy
  dsimp only
  rw [hlast, lastLength]
  cases hentries : c.entries.getLast? with
  | none =>
    -- without applets the sum of the first loop is still zero
    rw [List.getLast?_eq_none_iff.mp hentries] at hlens
    obtain rfl := Except.ok.inj hlens
    rfl
  | some e => exact congrArg Nat.cast e.toNat_length

/-- Where only the last AID is not empty the AIDs are taken. -/
theorem LastOnly.getAppletAid_eq (h : c.LastOnly) (junk : ℕ → UInt8) (behind : List UInt8)
    (appletAid : CapBuffer) :
    getAppletAid junk (c.bytes ++ behind) appletAid =
      .ok { appletAid with buffer := c.aids, dataLen := c.aids.length } := by
  obtain ⟨front, hfront, hbytes⟩ := c.bytes_split behind
  have htotal := c.lastOnly_iff_length.mp h
  have hcnt : (UInt8.ofNat c.entries.length).toNat = c.entries.length :=
    UInt8.toNat_ofNat_of_lt' c.few
  have hsum : (UInt8.ofNat c.aids.length).toNat = c.aids.length :=
    UInt8.toNat_ofNat_of_lt' (by rw [htotal]; exact c.lastLength_lt)
  have hlens := aidLenLoop_eq front (c.tail ++ behind) c.entries h
  obtain ⟨last, hcopy⟩ := aidCopyLoop_eq front (c.tail ++ behind) c.entries []
    (fmshMalloc junk c.aids.length) [] (length_fmshMalloc junk c.aids.length)
    (UInt8.ofNat c.aids.length)
  rw [List.append_nil, List.append_nil, List.nil_append, List.nil_append, List.length_nil] at hcopy
  rw [← hbytes, hfront] at hlens hcopy
  have hrun : getAppletAid junk (c.bytes ++ behind) appletAid =
      .ok { appletAid with buffer := c.aids, dataLen := last.toNat } := by
    unfold getAppletAid
    rw [c.byteAt_bytes, ok_bind, hcnt, hlens, ok_bind]
    change (aidCopyLoop _ _ 4 0 (UInt8.ofNat c.aids.length)
      (fmshMalloc junk (UInt8.ofNat c.aids.length).toNat) >>= _) = _
    rw [hsum, hcopy, ok_bind]
    rfl
  have hlast : (last.toNat : ℤ) = c.lastLength := dataLen_of_getAppletAid hrun
  rw [hrun, hlast, ← htotal]

end AppletComponent

/-! ## The loader -/

section Loader

variable {junk : ℕ → ℕ → UInt8} {block : ContentBlock} {cap cap' : CapInfo} {done : List UInt8}
  {i : ℕ} {component : List UInt8 → List UInt8} {names : List (List UInt8)} {st : CapStatus}

/-- The AIDs are those of the component that comes third behind the first. -/
theorem componentLoop_appletAid (h : cap.content.Holds junk block done)
    (hok : componentLoop junk (zipOf component) names i cap = .ok (st, cap')) :
    (3 < i → cap'.appletAid = cap.appletAid) ∧
    ∀ j name, names[j]? = some name → i + j = 3 → ∃ behind before,
      getAppletAid (junk 11) (component name ++ behind) before = .ok cap'.appletAid := by
  induction names generalizing i cap block done with
  | nil =>
    obtain ⟨-, rfl⟩ := Prod.mk.inj (Except.ok.inj hok)
    exact ⟨fun _ => rfl, by simp⟩
  | cons name names ih =>
    obtain ⟨cap₁, hload, hok⟩ := bind_eq_ok.mp hok
    obtain ⟨hholds, htakes⟩ := loadComponent_holds h hload
    obtain ⟨hkeep, htake⟩ := ih hholds hok
    refine ⟨fun hi => (hkeep (by omega)).trans (htakes.other (by omega)),
      fun j name' hname hj => ?_⟩
    cases j with
    | zero =>
      obtain rfl : name = name' := by simpa using hname
      exact ⟨_, cap.appletAid, by rw [hkeep (by omega)]; exact htakes.applet hj⟩
    | succ j => exact htake j name' (by simpa using hname) (by omega)

end Loader

/-- What is loaded has the length of the last AID. -/
theorem AidsLoaded.lastOnly {c : AppletComponent} (h : AidsLoaded c) : c.LastOnly := by
  let component : List UInt8 → List UInt8 := fun _ => c.bytes
  let empty : CapBuffer := ⟨[], 0, 0⟩
  obtain ⟨cap', hload, hdata, -⟩ := h.load (fun _ _ => 0) (fun _ hash => hash) component
    ⟨[], empty, empty, empty, empty⟩ rfl
  obtain ⟨⟨st, loaded⟩, hloop, hload⟩ := bind_eq_ok.mp hload
  obtain ⟨rfl, -⟩ := componentLoop_holds (startCap_holds _ _) hloop
  obtain ⟨-, rfl⟩ := Prod.mk.inj (Except.ok.inj hload)
  obtain ⟨behind, before, htaken⟩ :=
    (componentLoop_appletAid (startCap_holds _ _) hloop).2 3 _ rfl rfl
  have hlast := AppletComponent.dataLen_of_getAppletAid htaken
  rw [c.lastOnly_iff_length]
  exact_mod_cast hdata.symm.trans hlast

/-- Where only the last AID is not empty they are loaded. -/
theorem AppletComponent.LastOnly.aidsLoaded {c : AppletComponent} (h : c.LastOnly) :
    AidsLoaded c where
  load := by
    intro junk hash component cap hcomponent
    have hfit : AidsFit (appletMemory junk component) := by
      rw [appletMemory, hcomponent]
      exact (getAppletAid_ok_iff (junk 11) _ cap.appletAid).mp ⟨_, h.getAppletAid_eq _ _ _⟩
    obtain ⟨⟨st, loaded⟩, hloop⟩ :=
      (componentLoop_ok_iff (startCap_holds junk cap)).mpr (applet_iff.mpr hfit)
    obtain ⟨rfl, -⟩ := componentLoop_holds (startCap_holds junk cap) hloop
    obtain ⟨behind, before, htaken⟩ :=
      (componentLoop_appletAid (startCap_holds junk cap) hloop).2 3 _ rfl rfl
    rw [hcomponent, h.getAppletAid_eq] at htaken
    have haid := Except.ok.inj htaken
    refine ⟨{ loaded with hash := hash loaded.content loaded.hash }, ?_, ?_, ?_⟩
    · unfold caploaderLoad
      dsimp only
      rw [hloop, ok_bind]
      rfl
    · dsimp only
      rw [← haid]
    · dsimp only
      rw [← haid, List.take_length]
  within := by
    intro junk appletAid
    have hrun := h.getAppletAid_eq junk [] appletAid
    rw [List.append_nil] at hrun
    exact ⟨_, hrun⟩

/-- **The AIDs of the applets** are loaded exactly where every AID but the last is
empty. -/
theorem aidsLoaded_iff (c : AppletComponent) :
    AidsLoaded c ↔ ∀ e ∈ c.entries.dropLast, e.aid = [] :=
  ⟨AidsLoaded.lastOnly, AppletComponent.LastOnly.aidsLoaded⟩

/-- Two applets with AIDs of one byte. -/
def twoApplets : AppletComponent where
  head := [3, 0, 9]
  head_length := rfl
  entries := [⟨[0xA0], by decide, 0, 1⟩, ⟨[0xA1], by decide, 0, 2⟩]
  few := by decide
  tail := []

/-- Only the length of the second is recorded. -/
theorem twoApplets_fail : ¬ ∀ c : AppletComponent, AidsLoaded c := by
  intro h
  have hnil := (h twoApplets).lastOnly ⟨[0xA0], by decide, 0, 1⟩ (by simp [twoApplets])
  cases hnil

end TsmVm
