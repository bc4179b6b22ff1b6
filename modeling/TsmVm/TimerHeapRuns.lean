import TsmVm.TimerHeap

/-!
# The timers in memory are the timers

The lists of `TsmVm.FmTimer` are what the nodes in memory stand for: each list is a
ring of nodes with the fields it has, the nodes that wait to be linked are in none,
and there are no others. Every step in memory keeps this, does to the lists what the
step of the same name does, and touches no node that was freed.
-/

namespace TsmVm

open Rings

/-- The fields of a node as they lie in memory. -/
def TimerNode.fields (node : TimerNode) : TimerFields :=
  { expires := node.expires, function := node.function, data := node.data,
    timerID := node.timerID }

/-- Nodes with the addresses they lie at. -/
abbrev PlacedNodes := List (ℕ × TimerNode)

/-- The nodes there are are those of `all`. -/
structure Stored (tl : TimerHeads) (m : Links) (nodes : ℕ → Option TimerFields)
    (all : PlacedNodes) : Prop where
  /-- They lie apart. -/
  nodup : (tl.active :: tl.expire :: all.map Prod.fst).Nodup
  /-- Their entries and the heads are the cells there are. -/
  live : ∀ a, Live m a ↔ a ∈ tl.active :: tl.expire :: all.map Prod.fst
  /-- Nothing else is there. -/
  mem_of_some : ∀ a fields, nodes a = some fields → a ∈ all.map Prod.fst
  /-- They have the fields they should. -/
  fields : ∀ p ∈ all, nodes p.1 = some p.2.fields

/-- The nodes `ps` are linked in the active list, `qs` in the other, `rs` in none. -/
structure Laid (tl : TimerHeads) (m : Links) (nodes : ℕ → Option TimerFields)
    (ps qs rs : PlacedNodes) : Prop where
  active : Ring m tl.active (ps.map Prod.fst)
  expire : Ring m tl.expire (qs.map Prod.fst)
  stored : Stored tl m nodes (ps ++ qs ++ rs)

variable {tl : TimerHeads} {m m' : Links} {nodes : ℕ → Option TimerFields}
  {all all' ps ps' qs qs' rs rs' ks todo : PlacedNodes} {a : ℕ} {node node' : TimerNode}
  {l : List ℕ}

/-- The order of the nodes does not matter. -/
theorem Stored.perm (h : Stored tl m nodes all) (hp : all.Perm all') : Stored tl m nodes all' := by
  have haddrs := hp.map Prod.fst
  refine ⟨((haddrs.cons _).cons _).nodup_iff.mp h.nodup, fun a => ?_, fun a fields hsome => ?_,
    fun p hmem => h.fields p (hp.mem_iff.mpr hmem)⟩
  · rw [h.live, ((haddrs.cons _).cons _).mem_iff]
  · exact haddrs.mem_iff.mp (h.mem_of_some a fields hsome)

/-- Links may change. -/
theorem Stored.touch (h : Stored tl m nodes all) (ht : Touches l m m') :
    Stored tl m' nodes all :=
  ⟨h.nodup, fun a => (ht.live a).trans (h.live a), h.mem_of_some, h.fields⟩

/-- A node gets other fields. -/
theorem Stored.store (h : Stored tl m nodes ((a, node) :: all)) :
    Stored tl m (Function.update nodes a (some node'.fields)) ((a, node') :: all) := by
  obtain ⟨hnd, hlive, hmem, hfields⟩ := h
  refine ⟨hnd, hlive, fun b fields hsome => ?_, List.forall_mem_cons.mpr ⟨?_, fun p hp => ?_⟩⟩
  · by_cases hb : b = a
    · subst b
      exact List.mem_cons_self
    · rw [Function.update_of_ne hb] at hsome
      exact hmem b fields hsome
  · rw [Function.update_self]
  · have hne : p.1 ≠ a := by
      have hp' : p.1 ∈ all.map Prod.fst := List.mem_map_of_mem hp
      grind
    rw [Function.update_of_ne hne]
    exact hfields p (List.mem_cons_of_mem _ hp)

/-- A node is freed. -/
theorem Stored.free (node : TimerNode) (h : Stored tl m nodes ((a, node) :: all)) :
    Stored tl (Function.update m a none) (Function.update nodes a none) all := by
  obtain ⟨hnd, hlive, hmem, hfields⟩ := h
  simp only [List.map_cons] at hnd hlive hmem
  refine ⟨by grind, fun b => ?_, fun b fields hsome => ?_, fun p hp => ?_⟩
  · by_cases hb : b = a
    · subst b
      rw [Live, Function.update_self]
      simp only [Option.isSome_none, Bool.false_eq_true, false_iff]
      grind
    · have hb' := hlive b
      rw [Live] at hb' ⊢
      rw [Function.update_of_ne hb, hb']
      grind
  · by_cases hb : b = a
    · subst b
      rw [Function.update_self] at hsome
      cases hsome
    · rw [Function.update_of_ne hb] at hsome
      have hb' := hmem b fields hsome
      grind
  · have hp' : p.1 ∈ all.map Prod.fst := List.mem_map_of_mem hp
    have hne : p.1 ≠ a := by grind
    rw [Function.update_of_ne hne]
    exact hfields p (List.mem_cons_of_mem _ hp)

/-- A node is made where nothing was. -/
theorem Stored.alloc (node : TimerNode) (h : Stored tl m nodes all) (hfree : m a = none)
    (c : Rings.Cell ℕ) :
    Stored tl (Function.update m a (some c)) (Function.update nodes a (some node.fields))
      ((a, node) :: all) := by
  obtain ⟨hnd, hlive, hmem, hfields⟩ := h
  have hfresh : a ∉ tl.active :: tl.expire :: all.map Prod.fst := by
    rw [← hlive a, Live, hfree]
    simp
  refine ⟨by grind, fun b => ?_, fun b fields hsome => ?_, ?_⟩
  · by_cases hb : b = a
    · subst b
      simp [Live]
    · have hb' := hlive b
      rw [Live] at hb' ⊢
      rw [Function.update_of_ne hb, hb']
      grind
  · by_cases hb : b = a
    · subst b
      exact List.mem_cons_self
    · rw [Function.update_of_ne hb] at hsome
      exact List.mem_cons_of_mem _ (hmem b fields hsome)
  · refine List.forall_mem_cons.mpr ⟨by rw [Function.update_self], fun p hp => ?_⟩
    have hp' : p.1 ∈ all.map Prod.fst := List.mem_map_of_mem hp
    have hne : p.1 ≠ a := by grind
    rw [Function.update_of_ne hne]
    exact hfields p hp

/-- What is noted in a node beside its fields is not in memory. -/
theorem Stored.note (h : Stored tl m nodes all)
    (heq : (all'.map fun p => (p.1, p.2.fields)) = all.map fun p => (p.1, p.2.fields)) :
    Stored tl m nodes all' := by
  have haddrs : all'.map Prod.fst = all.map Prod.fst := by
    have hfst := congrArg (List.map Prod.fst) heq
    rwa [List.map_map, List.map_map] at hfst
  refine ⟨haddrs ▸ h.nodup, haddrs ▸ h.live, haddrs ▸ h.mem_of_some, fun p hp => ?_⟩
  have hmem : (p.1, p.2.fields) ∈ all.map fun p => (p.1, p.2.fields) := heq ▸ List.mem_map_of_mem hp
  obtain ⟨q, hq, hqp⟩ := List.mem_map.mp hmem
  obtain ⟨haddr, hfields⟩ := Prod.mk.inj hqp
  rw [← haddr, ← hfields]
  exact h.fields q hq

namespace Laid

/-- Reading a node of the active list. -/
theorem read_active {h : TimerHeap} (hl : Laid tl m h.nodes (ks ++ (a, node) :: todo) qs rs) :
    h.read a = .ok node.fields := by
  have hnode := hl.stored.fields (a, node) (by simp)
  rw [TimerHeap.read, hnode]

/-- A node of the active list gets other fields. -/
theorem store (hl : Laid tl m nodes (ks ++ (a, node) :: todo) qs rs) (node' : TimerNode) :
    Laid tl m (Function.update nodes a (some node'.fields)) (ks ++ (a, node') :: todo) qs rs := by
  have hfront (n : TimerNode) : ((a, n) :: (ks ++ (todo ++ (qs ++ rs)))).Perm
      (ks ++ (a, n) :: todo ++ qs ++ rs) := by
    simp only [List.append_assoc, List.cons_append]
    exact List.perm_middle.symm
  refine ⟨by simpa using hl.active, hl.expire, ?_⟩
  exact ((hl.stored.perm (hfront node).symm).store).perm (hfront node')

/-- A node goes from the active list to the other. -/
theorem move (hl : Laid tl m nodes (ks ++ (a, node) :: todo) qs rs) :
    ∃ m₁ m₂, listDel m a = .ok m₁ ∧ listAddTail m₁ a tl.expire = .ok m₂ ∧
      Laid tl m₂ nodes (ks ++ todo) (qs ++ [(a, node)]) rs := by
  obtain ⟨hactive, hexpire, hstored⟩ := hl
  have hnd := hstored.nodup
  simp only [List.map_append, List.map_cons] at hactive hnd
  obtain ⟨m₁, hdel, hactive₁, ht₁⟩ := listDel_ring hactive
  have hexpire₁ := ht₁.ring hexpire (by grind)
  have ha : Live m₁ a := (ht₁.live a).mpr (hactive.live (by simp))
  obtain ⟨m₂, hadd, hexpire₂, ht₂⟩ := listAddTail_ring hexpire₁ ha (by grind)
  refine ⟨m₁, m₂, hdel, hadd, ?_, ?_, ((hstored.touch ht₁).touch ht₂).perm ?_⟩
  · have hactive₂ := ht₂.ring hactive₁ (by grind)
    simpa using hactive₂
  · simpa using hexpire₂
  · rw [List.perm_iff_count]
    intro p
    simp only [List.count_append, List.count_cons, List.count_nil]
    omega

/-- A node goes from the active list and is freed. -/
theorem freeActive (hl : Laid tl m nodes (ks ++ (a, node) :: todo) qs rs) :
    ∃ m₁, listDel m a = .ok m₁ ∧
      Laid tl (Function.update m₁ a none) (Function.update nodes a none) (ks ++ todo) qs rs := by
  obtain ⟨hactive, hexpire, hstored⟩ := hl
  have hnd := hstored.nodup
  simp only [List.map_append, List.map_cons] at hactive hnd
  obtain ⟨m₁, hdel, hactive₁, ht₁⟩ := listDel_ring hactive
  have hexpire₁ := ht₁.ring hexpire (by grind)
  have hoff {x : ℕ} (hx : x ≠ a) : Function.update m₁ a none x = m₁ x :=
    Function.update_of_ne hx _ _
  refine ⟨m₁, hdel, ?_, hexpire₁.congr fun x hx => hoff (by grind), ?_⟩
  · rw [List.map_append]
    exact hactive₁.congr fun x hx => hoff (by grind)
  · refine ((hstored.touch ht₁).perm ?_).free node
    rw [List.perm_iff_count]
    intro p
    simp only [List.count_append, List.count_cons]
    omega

/-- A node goes from the other list and is freed. -/
theorem freeExpire (ks : PlacedNodes) (hl : Laid tl m nodes ps (ks ++ (a, node) :: todo) rs) :
    ∃ m₁, listDel m a = .ok m₁ ∧
      Laid tl (Function.update m₁ a none) (Function.update nodes a none) ps (ks ++ todo) rs := by
  obtain ⟨hactive, hexpire, hstored⟩ := hl
  have hnd := hstored.nodup
  simp only [List.map_append, List.map_cons] at hexpire hnd
  obtain ⟨m₁, hdel, hexpire₁, ht₁⟩ := listDel_ring hexpire
  have hactive₁ := ht₁.ring hactive (by grind)
  have hoff {x : ℕ} (hx : x ≠ a) : Function.update m₁ a none x = m₁ x :=
    Function.update_of_ne hx _ _
  refine ⟨m₁, hdel, hactive₁.congr fun x hx => hoff (by grind), ?_, ?_⟩
  · rw [List.map_append]
    exact hexpire₁.congr fun x hx => hoff (by grind)
  · refine ((hstored.touch ht₁).perm ?_).free node
    rw [List.perm_iff_count]
    intro p
    simp only [List.count_append, List.count_cons]
    omega

/-- A node that waits is linked. -/
theorem add (hl : Laid tl m nodes ps qs (ks ++ (a, node) :: todo)) :
    ∃ m₁, listAddTail m a tl.active = .ok m₁ ∧
      Laid tl m₁ nodes (ps ++ [(a, node)]) qs (ks ++ todo) := by
  obtain ⟨hactive, hexpire, hstored⟩ := hl
  have hnd := hstored.nodup
  simp only [List.map_append, List.map_cons] at hnd
  have ha : Live m a := (hstored.live a).mpr (by simp)
  obtain ⟨m₁, hadd, hactive₁, ht₁⟩ := listAddTail_ring hactive ha (by grind)
  refine ⟨m₁, hadd, by simpa using hactive₁, ht₁.ring hexpire (by grind),
    (hstored.touch ht₁).perm ?_⟩
  rw [List.perm_iff_count]
  intro p
  simp only [List.count_append, List.count_cons, List.count_nil]
  omega

/-- A node is made. -/
theorem alloc (node : TimerNode) (hl : Laid tl m nodes ps qs rs) (hfree : m a = none)
    (c : Rings.Cell ℕ) :
    Laid tl (Function.update m a (some c)) (Function.update nodes a (some node.fields)) ps qs
      (rs ++ [(a, node)]) := by
  obtain ⟨hactive, hexpire, hstored⟩ := hl
  have hoff {h : ℕ} {xs : List ℕ} (hr : Ring m h xs) :
      Ring (Function.update m a (some c)) h xs := by
    refine hr.congr fun x hx => Function.update_of_ne (fun heq => ?_) _ _
    have hlive := hr.live hx
    rw [heq, Live, hfree] at hlive
    cases hlive
  refine ⟨hoff hactive, hoff hexpire, (hstored.alloc node hfree c).perm ?_⟩
  rw [← List.append_assoc]
  exact (List.perm_append_singleton _ _).symm

/-- What is noted in the nodes of the other list is not in memory. -/
theorem noteExpire (hl : Laid tl m nodes ps (qs ++ todo) rs) {f : TimerNode → TimerNode}
    (hf : ∀ node, (f node).fields = node.fields) :
    Laid tl m nodes ps (qs.map (Prod.map id f) ++ todo) rs := by
  obtain ⟨hactive, hexpire, hstored⟩ := hl
  have haddrs : (qs.map (Prod.map id f)).map Prod.fst = qs.map Prod.fst := by
    rw [List.map_map]
    rfl
  refine ⟨hactive, ?_, hstored.note ?_⟩
  · rw [List.map_append, haddrs, ← List.map_append]
    exact hexpire
  · simp only [List.map_append, List.map_map]
    congr 3
    refine List.map_congr_left fun p _ => ?_
    simp [hf]

/-- Where the active list has nothing in front of the loop but `todo`. -/
theorem active_todo (hl : Laid tl m nodes (ks ++ todo) qs rs) :
    tl.active ∉ todo.map Prod.fst ∧ (todo.map Prod.fst ++ [tl.active]).IsChain (Linked m) ∧
      Live m tl.active := by
  have hactive := hl.active
  rw [List.map_append] at hactive
  exact hactive.todo _

end Laid

/-! ## The loops -/

/-- What a step of the lists leaves open is what the step in memory leaves open. -/
def placedOverflow (overflow : ℤ → ℤ) (interval : ℤ) (node : TimerNode) : ℤ :=
  overflow (node.expires - interval)

/-- One more node in a tick. -/
theorem clocktickLoop_append (overflow : TimerNode → ℤ) (interval : ℤ) (l : List TimerNode)
    (node : TimerNode) :
    clocktickLoop overflow interval (l ++ [node]) =
      if (takeInterval overflow interval node).expires ≤ 0 then
        ((clocktickLoop overflow interval l).1,
          (clocktickLoop overflow interval l).2 ++ [takeInterval overflow interval node])
      else
        ((clocktickLoop overflow interval l).1 ++ [takeInterval overflow interval node],
          (clocktickLoop overflow interval l).2) := by
  simp only [clocktickLoop_eq, List.map_append, List.filter_append, List.map_singleton]
  split
  · have hover : ¬ 0 < (takeInterval overflow interval node).expires := by omega
    simp [*]
  · have hleft : 0 < (takeInterval overflow interval node).expires := by omega
    simp [*]

/-- The entries in front of a loop and the nodes they belong to. -/
theorem map_fst_eq_cons {ts : PlacedNodes} {e : ℕ} {todo : List ℕ}
    (h : e :: todo = ts.map Prod.fst) :
    ∃ node ts', ts = (e, node) :: ts' ∧ todo = ts'.map Prod.fst := by
  cases ts with
  | nil => cases h
  | cons p ts =>
    obtain ⟨b, node⟩ := p
    obtain ⟨rfl, rfl⟩ := List.cons.inj h
    exact ⟨node, ts, rfl, rfl⟩

/-- A tick, in memory and on the lists. -/
theorem clocktickHandler_laid {h : TimerHeap} (hl : Laid tl h.links h.nodes ps qs rs)
    (overflow : ℤ → ℤ) {fuel : ℕ} (hfuel : ps.length < fuel) :
    ∃ h' ps' es, h.clocktickHandler tl overflow fuel = .ok h' ∧
      Laid tl h'.links h'.nodes ps' (qs ++ es) rs ∧
      clocktickLoop (placedOverflow overflow h.interval) h.interval (ps.map Prod.snd) =
        (ps'.map Prod.snd, es.map Prod.snd) ∧
      h' = { h with links := h'.links, nodes := h'.nodes, activeCnt := h.activeCnt - es.length,
                    expireCnt := h.expireCnt + es.length } := by
  have hrule := forEachSafe_rule TimerHeap.links (TimerHeap.clocktickBody tl overflow)
    (fun done todo g => ∃ ds ts ks es, ds ++ ts = ps ∧ done = ds.map Prod.fst ∧
      todo = ts.map Prod.fst ∧ Laid tl g.links g.nodes (ks ++ ts) (qs ++ es) rs ∧
      clocktickLoop (placedOverflow overflow h.interval) h.interval (ds.map Prod.snd) =
        (ks.map Prod.snd, es.map Prod.snd) ∧
      g = { h with links := g.links, nodes := g.nodes, activeCnt := h.activeCnt - es.length,
                   expireCnt := h.expireCnt + es.length })
    ?_ ?_ ?_ hl.active (show (ps.map Prod.fst).length < fuel by simpa using hfuel)
  · obtain ⟨h', hrun, ds, ts, ks, es, heq, -, hts, hlaid, hloop, hh'⟩ := hrule
    obtain rfl : ts = [] := List.map_eq_nil_iff.mp hts.symm
    rw [List.append_nil] at heq hlaid
    subst ds
    exact ⟨h', ks, es, hrun, hlaid, hloop, hh'⟩
  · rintro done todo g ⟨ds, ts, ks, es, -, -, rfl, hlaid, -, -⟩
    exact hlaid.active_todo
  · rintro done e todo g ⟨ds, ts, ks, es, rfl, rfl, hts, hlaid, hloop, hg⟩
    obtain ⟨node, ts, rfl, rfl⟩ := map_fst_eq_cons hts
    have hinterval : g.interval = h.interval := by rw [hg]
    let node' := takeInterval (placedOverflow overflow h.interval) h.interval node
    have hfields : TimerHeap.takeInterval overflow g.interval node.fields = node'.fields := by
      rw [hinterval]
      rfl
    have hstored := hlaid.store node'
    have happend := clocktickLoop_append (placedOverflow overflow h.interval) h.interval
      (ds.map Prod.snd) node
    rw [hloop] at happend
    by_cases hover : node'.expires ≤ 0
    · obtain ⟨m₁, m₂, hdel, hadd, hlaid₂⟩ := hstored.move
      refine ⟨{ g.store e node'.fields with links := m₂, activeCnt := g.activeCnt - 1,
                                            expireCnt := g.expireCnt + 1 }, ?_,
        ds ++ [(e, node)], ts, ks, es ++ [(e, node')], by simp, by simp, rfl, ?_, ?_, ?_⟩
      · rw [TimerHeap.clocktickBody, hlaid.read_active, ok_bind, hfields]
        dsimp only
        rw [if_pos (by exact hover)]
        change (listDel g.links e >>= _) = _
        rw [hdel, ok_bind, hadd]
        rfl
      · rw [← List.append_assoc]
        exact hlaid₂
      · rw [List.map_append, List.map_singleton, happend, if_pos hover, List.map_append]
        rfl
      · rw [hg]
        simp only [TimerHeap.store, List.length_append, List.length_singleton, Nat.cast_add,
          Nat.cast_one, TimerHeap.mk.injEq, true_and, and_true]
        omega
    · refine ⟨g.store e node'.fields, ?_, ds ++ [(e, node)], ts, ks ++ [(e, node')], es, by simp,
        by simp, rfl, ?_, ?_, ?_⟩
      · rw [TimerHeap.clocktickBody, hlaid.read_active, ok_bind, hfields]
        dsimp only
        rw [if_neg (by exact hover)]
        rfl
      · rw [List.append_assoc]
        exact hstored
      · rw [List.map_append, List.map_singleton, happend, if_neg hover, List.map_append]
        rfl
      · rw [hg]
        rfl
  · exact ⟨[], ps, [], [], rfl, rfl, rfl, by simpa using hl, rfl, by simp⟩

theorem TimerHeap.free_eq {h : TimerHeap} {fields : TimerFields} (hnode : h.nodes a = some fields) :
    h.free a = .ok { h with links := Function.update h.links a none
                            nodes := Function.update h.nodes a none } := by
  rw [TimerHeap.free, TimerHeap.read, hnode]
  rfl

/-- `fmtimer_del`, in memory and on the list. -/
theorem fmtimerDel_laid {h : TimerHeap} (hl : Laid tl h.links h.nodes ps qs rs) (timerID : ℤ)
    {fuel : ℕ} (hfuel : ps.length < fuel) :
    ∃ h' ps', h.fmtimerDel tl timerID fuel = .ok h' ∧ Laid tl h'.links h'.nodes ps' qs rs ∧
      ps'.map Prod.snd = (ps.map Prod.snd).filter (·.timerID ≠ timerID) ∧
      h' = { h with links := h'.links, nodes := h'.nodes,
                    activeCnt :=
                      h.activeCnt - (ps.map Prod.snd).countP (·.timerID = timerID) } := by
  have hrule := forEachSafe_rule TimerHeap.links (TimerHeap.delBody timerID)
    (fun done todo g => ∃ ds ts ks, ds ++ ts = ps ∧ done = ds.map Prod.fst ∧
      todo = ts.map Prod.fst ∧ Laid tl g.links g.nodes (ks ++ ts) qs rs ∧
      ks.map Prod.snd = (ds.map Prod.snd).filter (·.timerID ≠ timerID) ∧
      g = { h with links := g.links, nodes := g.nodes,
                   activeCnt :=
                     h.activeCnt - (ds.map Prod.snd).countP (·.timerID = timerID) })
    ?_ ?_ ?_ hl.active (show (ps.map Prod.fst).length < fuel by simpa using hfuel)
  · obtain ⟨h', hrun, ds, ts, ks, heq, -, hts, hlaid, hloop, hh'⟩ := hrule
    obtain rfl : ts = [] := List.map_eq_nil_iff.mp hts.symm
    rw [List.append_nil] at heq hlaid
    subst ds
    exact ⟨h', ks, hrun, hlaid, hloop, hh'⟩
  · rintro done todo g ⟨ds, ts, ks, -, -, rfl, hlaid, -, -⟩
    exact hlaid.active_todo
  · rintro done e todo g ⟨ds, ts, ks, rfl, rfl, hts, hlaid, hloop, hg⟩
    obtain ⟨node, ts, rfl, rfl⟩ := map_fst_eq_cons hts
    by_cases hid : node.timerID = timerID
    · obtain ⟨m₁, hdel, hlaid'⟩ := hlaid.freeActive
      have hnode : g.nodes e = some node.fields := hlaid.stored.fields (e, node) (by simp)
      refine ⟨{ g with links := Function.update m₁ e none,
                       nodes := Function.update g.nodes e none,
                       activeCnt := g.activeCnt - 1 }, ?_,
        ds ++ [(e, node)], ts, ks, by simp, by simp, rfl, hlaid', ?_, ?_⟩
      · rw [TimerHeap.delBody, hlaid.read_active, ok_bind, if_pos (by exact hid), hdel, ok_bind]
        exact TimerHeap.free_eq (h := { g with links := m₁, activeCnt := g.activeCnt - 1 }) hnode
      · simpa [hid] using hloop
      · rw [hg]
        simp only [List.map_append, List.map_singleton, List.countP_append, List.countP_singleton,
          hid, decide_true, if_true, Nat.cast_add, Nat.cast_one, TimerHeap.mk.injEq, true_and,
          and_true]
        omega
    · refine ⟨g, ?_, ds ++ [(e, node)], ts, ks ++ [(e, node)], by simp, by simp, rfl, ?_, ?_, ?_⟩
      · rw [TimerHeap.delBody, hlaid.read_active, ok_bind, if_neg (by exact hid)]
        rfl
      · rw [List.append_assoc]
        exact hlaid
      · simp [hid, hloop]
      · simpa [hid] using hg
  · exact ⟨[], ps, [], rfl, rfl, rfl, by simpa using hl, rfl, by simp⟩

/-- The handler, in memory and on the list. -/
theorem toHandler_laid {h : TimerHeap} (hl : Laid tl h.links h.nodes ps qs rs)
    {fuel : ℕ} (hfuel : qs.length < fuel) :
    ∃ h', h.toHandler tl fuel = .ok (h', ((qs.map Prod.snd).filterMap TimerNode.call?).map
        fun c => (c.function, c.data)) ∧
      Laid tl h'.links h'.nodes ps [] rs ∧
      h' = { h with links := h'.links, nodes := h'.nodes } := by
  have hrule := forEachSafe_rule (fun s : TimerHeap × List (ℕ × ℤ) => s.1.links)
    TimerHeap.toHandlerBody (fun done todo s => ∃ ds ts, ds ++ ts = qs ∧ done = ds.map Prod.fst ∧
      todo = ts.map Prod.fst ∧ Laid tl s.1.links s.1.nodes ps ts rs ∧
      s.2 = ((ds.map Prod.snd).filterMap TimerNode.call?).map (fun c => (c.function, c.data)) ∧
      s.1 = { h with links := s.1.links, nodes := s.1.nodes })
    ?_ ?_ (s := (h, [])) ?_ hl.expire
    (show (qs.map Prod.fst).length < fuel by simpa using hfuel)
  · obtain ⟨⟨h', calls⟩, hrun, ds, ts, heq, -, hts, hlaid, hcalls, hh'⟩ := hrule
    obtain rfl : ts = [] := List.map_eq_nil_iff.mp hts.symm
    rw [List.append_nil] at heq
    subst ds
    dsimp only at hcalls
    rw [hcalls] at hrun
    exact ⟨h', hrun, hlaid, hh'⟩
  · rintro done todo s ⟨ds, ts, -, -, rfl, hlaid, -, -⟩
    exact hlaid.expire.todo []
  · rintro done e todo ⟨g, calls⟩ ⟨ds, ts, rfl, rfl, hts, hlaid, hcalls, hg⟩
    obtain ⟨node, ts, rfl, rfl⟩ := map_fst_eq_cons hts
    dsimp only at hlaid hcalls hg
    obtain ⟨m₁, hdel, hlaid'⟩ := hlaid.freeExpire []
    have hnode : g.nodes e = some node.fields := hlaid.stored.fields (e, node) (by simp)
    refine ⟨({ g with links := Function.update m₁ e none,
                      nodes := Function.update g.nodes e none },
        calls ++ (node.call?.toList.map fun c => (c.function, c.data))), ?_,
      ds ++ [(e, node)], ts, by simp, by simp, rfl, hlaid', ?_, ?_⟩
    · have hread : TimerHeap.read { g with links := m₁ } e = .ok node.fields := by
        rw [TimerHeap.read, hnode]
      have hfree := TimerHeap.free_eq (h := { g with links := m₁ }) hnode
      rw [TimerHeap.toHandlerBody]
      dsimp only
      rw [hdel, ok_bind, hread, ok_bind, hfree, ok_bind, pure_eq_ok]
      cases hfunction : node.function <;>
        simp [TimerNode.fields, TimerNode.call?, hfunction]
    · simp only [hcalls, List.map_append, List.map_singleton, List.filterMap_append]
      cases hcall : node.call? <;> simp [hcall]
    · rw [hg]
  · exact ⟨[], qs, rfl, rfl, rfl, hl, rfl, rfl⟩

/-- `fmtimer_rearm` from an entry on, in memory and on the list. -/
theorem rearmLoop_laid {h : TimerHeap} {ts : PlacedNodes}
    (hl : Laid tl h.links h.nodes (ks ++ ts) qs rs) (timerID newExpire : ℤ) {fuel n : ℕ}
    (hfuel : ts.length < fuel)
    (hn : ∀ e rest, ts.map Prod.fst = e :: rest → n = rest.headD tl.active) :
    ∃ h' ts',
      TimerHeap.rearmLoop tl timerID newExpire fuel ((ts.map Prod.fst).headD tl.active) n h =
        .ok (h', if (rearmLoop timerID newExpire (ts.map Prod.snd)).isSome then 0 else -1) ∧
      Laid tl h'.links h'.nodes (ks ++ ts') qs rs ∧
      (rearmLoop timerID newExpire (ts.map Prod.snd)).getD (ts.map Prod.snd) = ts'.map Prod.snd ∧
      h' = { h with nodes := h'.nodes } := by
  induction ts generalizing ks fuel n with
  | nil =>
    obtain ⟨fuel, rfl⟩ := Nat.exists_eq_add_of_lt hfuel
    exact ⟨h, [], by simp [TimerHeap.rearmLoop, rearmLoop], hl, rfl, rfl⟩
  | cons p ts ih =>
    obtain ⟨e, node⟩ := p
    obtain ⟨fuel, rfl⟩ := Nat.exists_eq_add_of_lt hfuel
    have hne : e ≠ tl.active := by
      have hnotin := hl.active_todo.1
      grind
    rw [List.map_cons, List.headD_cons, List.length_cons, TimerHeap.rearmLoop, if_neg hne,
      hl.read_active, ok_bind, List.map_cons, rearmLoop]
    by_cases hid : node.timerID = timerID
    · rw [if_pos (by exact hid), if_pos hid]
      let node' := { node with expires := newExpire, timeout := newExpire, ticks := 0 }
      exact ⟨h.store e node'.fields, (e, node') :: ts, rfl, hl.store node', rfl, rfl⟩
    · rw [if_neg (by exact hid), if_neg hid]
      have hl' : Laid tl h.links h.nodes (ks ++ [(e, node)] ++ ts) qs rs := by
        rw [List.append_assoc]
        exact hl
      obtain ⟨-, hchain, hlive⟩ := hl'.active_todo
      obtain ⟨n', hnext, hn'⟩ := nextOf_todo hlive hchain
      obtain ⟨h', ts', hrun, hlaid, hlist, hh'⟩ :=
        ih hl' (show ts.length < ts.length + 1 + fuel by omega) hn'
      refine ⟨h', (e, node) :: ts', ?_, ?_, ?_, hh'⟩
      · rw [hn e _ rfl, hnext, ok_bind, hrun, Option.isSome_map]
      · rw [List.append_assoc] at hlaid
        exact hlaid
      · rw [List.map_cons, ← hlist]
        cases rearmLoop timerID newExpire (ts.map Prod.snd) <;> rfl

/-- `fmtimer_rearm`, in memory and on the list. -/
theorem fmtimerRearm_laid {h : TimerHeap} (hl : Laid tl h.links h.nodes ps qs rs)
    (timerID newExpire : ℤ) {fuel : ℕ} (hfuel : ps.length < fuel) :
    ∃ h' ps', h.fmtimerRearm tl timerID newExpire fuel =
        .ok (h', if (rearmLoop timerID newExpire (ps.map Prod.snd)).isSome then 0 else -1) ∧
      Laid tl h'.links h'.nodes ps' qs rs ∧
      (rearmLoop timerID newExpire (ps.map Prod.snd)).getD (ps.map Prod.snd) = ps'.map Prod.snd ∧
      h' = { h with nodes := h'.nodes } := by
  obtain ⟨-, hchain, hlive⟩ :=
    Laid.active_todo (show Laid tl h.links h.nodes ([] ++ ps) qs rs from hl)
  obtain ⟨n, hnext, hn⟩ := nextOf_todo hlive hchain
  obtain ⟨h', ps', hrun, hlaid⟩ := rearmLoop_laid
    (show Laid tl h.links h.nodes ([] ++ ps) qs rs from hl) timerID newExpire hfuel hn
  refine ⟨h', ps', ?_, hlaid⟩
  rw [TimerHeap.fmtimerRearm, nextOf_eq hl.active.linked_first, ok_bind, hnext, ok_bind, hrun]

/-! ## The steps -/

/-- The state in memory `s` is the state of the lists `t`. -/
structure Stands (tl : TimerHeads) (s : TimerHeapState) (t : TimerState)
    (ps qs rs : PlacedNodes) : Prop where
  laid : Laid tl s.heap.links s.heap.nodes ps qs rs
  active : t.tl.activeList = ps.map Prod.snd
  expire : t.tl.expireList = qs.map Prod.snd
  adding : t.adding = rs.map Prod.snd
  addingAddrs : s.adding = rs.map Prod.fst
  activeCnt : t.tl.activeCnt = s.heap.activeCnt
  expireCnt : t.tl.expireCnt = s.heap.expireCnt
  interval : t.tl.interval = s.heap.interval
  semTimer : t.tl.semTimer = s.heap.semTimer
  timerID : t.timerID = s.timerID
  testing : t.testing = s.testing
  posting : t.posting = s.posting
  handler : t.handler = s.handler
  calls : s.calls = t.calls.map fun c => (c.function, c.data)

/-- Steps of one name. -/
inductive SameStep : TimerHeapAct → TimerAct → Prop
  | addDraw {a : ℕ × Rings.Cell ℕ} {timeout : UInt32} {function : Option ℕ} {data : ℤ} :
      SameStep (.addDraw (some a) timeout function data) (.addDraw timeout function data)
  | addLink {a : ℕ} {node : TimerNode} : SameStep (.addLink a) (.addLink node)
  | rearm {timerID : ℤ} {newExpire : Int32} :
      SameStep (.rearm timerID newExpire) (.rearm timerID newExpire)
  | del {timerID : ℤ} : SameStep (.del timerID) (.del timerID)
  | tick {overflow : ℤ → ℤ} {interval : ℤ} :
      SameStep (.tick overflow) (.tick (placedOverflow overflow interval))
  | tickTest : SameStep .tickTest .tickTest
  | tickPost : SameStep .tickPost .tickPost
  | handlerWait : SameStep .handlerWait .handlerWait
  | handlerRun : SameStep .handlerRun .handlerRun

/-- The state in memory stands for the state of the lists. -/
def StandsFor (tl : TimerHeads) (s : TimerHeapState) (t : TimerState) : Prop :=
  ∃ ps qs rs, Stands tl s t ps qs rs

/-- What a step in memory ends with is what the step of its name on the lists ends with. -/
def Matched (tl : TimerHeads) (t : TimerState) (l : TimerHeapAct) (r : Res TimerHeapState) : Prop :=
  ∃ s' k t', r = .ok s' ∧ SameStep l k ∧ timerStep t k = some t' ∧ StandsFor tl s' t'

namespace Stands

variable {s : TimerHeapState} {t : TimerState} {fuel : ℕ} {r : Res TimerHeapState}

theorem addDraw (h : Stands tl s t ps qs rs) {c : Rings.Cell ℕ} {timeout : UInt32}
    {function : Option ℕ} {data : ℤ}
    (hstep : timerHeapStep tl fuel s (.addDraw (some (a, c)) timeout function data) = some r) :
    Matched tl t (.addDraw (some (a, c)) timeout function data) r := by
  obtain ⟨⟨hfree, -⟩, hstep⟩ := Option.ite_none_right_eq_some.mp hstep
  obtain rfl := Option.some.inj hstep
  have hlaid := h.laid.alloc (fmtimerNode timeout function data t.timerID t.added) hfree c
  have hfields : (fmtimerNode timeout function data t.timerID t.added).fields =
      ⟨u32ToInt timeout, function, data, s.timerID⟩ := by
    simp only [TimerNode.fields, fmtimerNode, h.timerID]
  rw [hfields] at hlaid
  refine ⟨_, .addDraw timeout function data, _, rfl, .addDraw, rfl, ps, qs,
    rs ++ [(a, fmtimerNode timeout function data t.timerID t.added)], ?_⟩
  exact { h with
    laid := hlaid
    adding := by rw [List.map_append, ← h.adding]; rfl
    addingAddrs := by rw [List.map_append, ← h.addingAddrs]; rfl
    timerID := by rw [← h.timerID] }

theorem addLink (h : Stands tl s t ps qs rs) (hdistinct : TimersDistinct t)
    (hstep : timerHeapStep tl fuel s (.addLink a) = some r) : Matched tl t (.addLink a) r := by
  obtain ⟨ha, hstep⟩ := Option.ite_none_right_eq_some.mp hstep
  rw [h.addingAddrs] at ha
  obtain ⟨⟨b, node⟩, hmem, rfl⟩ := List.mem_map.mp ha
  obtain ⟨ks, todo, rfl⟩ := List.append_of_mem hmem
  obtain ⟨m₁, hadd, hlaid⟩ := h.laid.add
  obtain rfl := Option.some.inj hstep
  -- no other node that waits is the same, neither by its number nor by its address
  have hnode : node ∉ ks.map Prod.snd := by
    intro hmem
    have hcount := hdistinct node.uid
    have hks := List.one_le_count_iff.mpr (List.mem_map_of_mem (f := TimerNode.uid) hmem)
    simp only [timerUids, h.adding, List.map_append, List.map_cons, List.count_append,
      List.count_cons_self] at hcount
    split at hcount <;> omega
  have hb : b ∉ ks.map Prod.fst := by
    have hnd := h.laid.stored.nodup
    simp only [List.map_append, List.map_cons] at hnd
    grind
  have hrun : s.heap.fmtimerAdd tl b =
      .ok { s.heap with links := m₁, activeCnt := s.heap.activeCnt + 1 } := by
    rw [TimerHeap.fmtimerAdd, hadd]
    rfl
  refine ⟨{ s with heap := { s.heap with links := m₁, activeCnt := s.heap.activeCnt + 1 },
                   adding := s.adding.erase b }, .addLink node, _, ?_, .addLink, if_pos ?_,
    ps ++ [(b, node)], qs, ks ++ todo, ?_⟩
  · rw [hrun]
    rfl
  · rw [h.adding]
    exact List.mem_map_of_mem (f := Prod.snd) hmem
  · exact { h with
      laid := hlaid
      active := by rw [List.map_append, ← h.active]; rfl
      adding := by
        dsimp only
        rw [h.adding, List.map_append, List.map_cons, List.erase_append_right _ hnode,
          List.erase_cons_head, List.map_append]
      addingAddrs := by
        dsimp only
        rw [h.addingAddrs, List.map_append, List.map_cons, List.erase_append_right _ hb,
          List.erase_cons_head, List.map_append]
      activeCnt := congrArg (· + 1) h.activeCnt }

theorem rearm (h : Stands tl s t ps qs rs) (hfuel : ps.length < fuel) {timerID : ℤ}
    {newExpire : Int32} (hstep : timerHeapStep tl fuel s (.rearm timerID newExpire) = some r) :
    Matched tl t (.rearm timerID newExpire) r := by
  obtain ⟨h', ps', hrun, hlaid, hlist, hh'⟩ :=
    fmtimerRearm_laid h.laid timerID newExpire.toInt hfuel
  obtain rfl := Option.some.inj hstep
  have heq : (fmtimerRearm timerID newExpire.toInt t.tl).1 =
      { t.tl with activeList := ps'.map Prod.snd } := by
    unfold fmtimerRearm
    rw [h.active, ← hlist]
    cases rearmLoop timerID newExpire.toInt (ps.map Prod.snd) with
    | none => rw [Option.getD_none, ← h.active]
    | some active => rfl
  refine ⟨{ s with heap := h' }, .rearm timerID newExpire, _, ?_, .rearm, rfl, ps', qs, rs, ?_⟩
  · rw [hrun]
    rfl
  · rw [hh'] at hlaid ⊢
    rw [heq]
    exact { h with laid := hlaid, active := rfl }

theorem del (h : Stands tl s t ps qs rs) (hfuel : ps.length < fuel) {timerID : ℤ}
    (hstep : timerHeapStep tl fuel s (.del timerID) = some r) : Matched tl t (.del timerID) r := by
  obtain ⟨h', ps', hrun, hlaid, hlist, hh'⟩ := fmtimerDel_laid h.laid timerID hfuel
  obtain rfl := Option.some.inj hstep
  have hnoted :=
    Laid.noteExpire (show Laid tl h'.links h'.nodes ps' (qs ++ []) rs by simpa using hlaid)
    (f := fun node => { node with deleted := node.deleted || node.timerID = timerID })
    fun _ => rfl
  rw [List.append_nil] at hnoted
  refine ⟨{ s with heap := h' }, .del timerID, _, ?_, .del, rfl, ps',
    qs.map (Prod.map id fun node =>
      { node with deleted := node.deleted || node.timerID = timerID }), rs, ?_⟩
  · rw [hrun]
    rfl
  · rw [hh'] at hnoted ⊢
    exact { h with
      laid := hnoted
      active := by rw [hlist, ← h.active]; rfl
      expire := by
        dsimp only [fmtimerDel]
        rw [h.expire, List.map_map, List.map_map]
        rfl
      activeCnt := by
        dsimp only [fmtimerDel]
        rw [h.activeCnt, h.active] }

theorem tick (h : Stands tl s t ps qs rs) (hfuel : ps.length < fuel) {overflow : ℤ → ℤ}
    (hstep : timerHeapStep tl fuel s (.tick overflow) = some r) :
    Matched tl t (.tick overflow) r := by
  obtain ⟨h', ps', es, hrun, hlaid, hloop, hh'⟩ := clocktickHandler_laid h.laid overflow hfuel
  obtain rfl := Option.some.inj hstep
  have hnoted := hlaid.noteExpire (f := fun node => { node with ticks := node.ticks + 1 })
    fun _ => rfl
  rw [← h.active, ← h.interval] at hloop
  refine ⟨{ s with heap := h', testing := s.testing + 1 },
    .tick (placedOverflow overflow t.tl.interval), _, ?_, .tick, rfl, ps',
    qs.map (Prod.map id fun node => { node with ticks := node.ticks + 1 }) ++ es, rs, ?_⟩
  · rw [hrun]
    rfl
  · rw [hh'] at hnoted ⊢
    have hlength : (es.map Prod.snd).length = es.length := List.length_map ..
    exact { h with
      laid := hnoted
      active := by simp only [clocktickHandler, hloop]
      expire := by
        simp only [clocktickHandler, hloop, h.expire, List.map_append, List.map_map]
        rfl
      activeCnt := by simp only [clocktickHandler, hloop, hlength, h.activeCnt]
      expireCnt := by simp only [clocktickHandler, hloop, hlength, h.expireCnt]
      testing := congrArg (· + 1) h.testing }

theorem handlerRun (h : Stands tl s t ps qs rs) (hfuel : qs.length < fuel)
    (hstep : timerHeapStep tl fuel s .handlerRun = some r) : Matched tl t .handlerRun r := by
  obtain ⟨hpc, hstep⟩ := Option.ite_none_right_eq_some.mp hstep
  obtain ⟨h', hrun, hlaid, hh'⟩ := toHandler_laid h.laid hfuel
  obtain rfl := Option.some.inj hstep
  rw [← h.expire] at hrun
  refine ⟨{ s with handler := .done, heap := h',
                   calls := s.calls ++ (t.tl.expireList.filterMap TimerNode.call?).map
                     fun c => (c.function, c.data) }, .handlerRun, _, ?_, .handlerRun,
    if_pos (h.handler.trans hpc), ps, [], rs, ?_⟩
  · rw [hrun]
    rfl
  · rw [hh'] at hlaid ⊢
    exact { h with
      laid := hlaid
      expire := rfl
      handler := rfl
      calls := by
        dsimp only [toHandler]
        rw [h.calls, List.map_append] }

/-- A step in memory is a step of the lists and touches no cell that is not there,
unless `fm_malloc` has no room for its node. -/
theorem step (h : Stands tl s t ps qs rs) (hdistinct : TimersDistinct t) {l : TimerHeapAct}
    (hfuel : ps.length < fuel ∧ qs.length < fuel) (hstep : timerHeapStep tl fuel s l = some r)
    (hroom : ∀ timeout function data, l ≠ .addDraw none timeout function data) :
    Matched tl t l r := by
  cases l with
  | addDraw a timeout function data =>
    cases a with
    | none => exact absurd rfl (hroom timeout function data)
    | some a => exact h.addDraw hstep
  | addLink a => exact h.addLink hdistinct hstep
  | rearm timerID newExpire => exact h.rearm hfuel.1 hstep
  | del timerID => exact h.del hfuel.1 hstep
  | tick overflow => exact h.tick hfuel.1 hstep
  | tickTest =>
    obtain ⟨htesting, hstep⟩ := Option.ite_none_right_eq_some.mp hstep
    obtain rfl := Option.some.inj hstep
    refine ⟨_, .tickTest, _, rfl, .tickTest, if_pos (h.testing ▸ htesting), ps, qs, rs, ?_⟩
    exact { h with
      testing := congrArg (· - 1) h.testing
      posting := by dsimp only; rw [h.expireCnt, h.posting] }
  | tickPost =>
    obtain ⟨hposting, hstep⟩ := Option.ite_none_right_eq_some.mp hstep
    obtain rfl := Option.some.inj hstep
    refine ⟨_, .tickPost, _, rfl, .tickPost, if_pos (h.posting ▸ hposting), ps, qs, rs, ?_⟩
    exact { h with
      posting := congrArg (· - 1) h.posting
      semTimer := congrArg (· + 1) h.semTimer }
  | handlerWait =>
    obtain ⟨⟨hpc, hsem⟩, hstep⟩ := Option.ite_none_right_eq_some.mp hstep
    obtain rfl := Option.some.inj hstep
    refine ⟨_, .handlerWait, _, rfl, .handlerWait,
      if_pos ⟨h.handler.trans hpc, h.semTimer ▸ hsem⟩, ps, qs, rs, ?_⟩
    exact { h with
      handler := rfl
      semTimer := congrArg (· - 1) h.semTimer }
  | handlerRun => exact h.handlerRun hfuel.2 hstep

end Stands

/-- `fmtimer_init` leaves two lists without nodes. -/
theorem fmtimerInit_laid (tl : TimerHeads) (interval : ℤ) :
    ∃ heap, TimerHeap.fmtimerInit tl interval = .ok heap ∧
      Laid tl heap.links heap.nodes [] [] [] ∧
      heap = { links := heap.links, nodes := heap.nodes, activeCnt := 0, expireCnt := 0,
               interval := interval, semTimer := 0 } := by
  let m : Links := fun a => if a = tl.active ∨ a = tl.expire then some ⟨0, 0⟩ else none
  have hm (a : ℕ) : Live m a ↔ a ∈ [tl.active, tl.expire] := by
    rw [List.mem_cons, List.mem_singleton]
    by_cases ha : a = tl.active ∨ a = tl.expire <;> simp [Live, m, ha]
  obtain ⟨m₁, hinit₁, hactive₁, ht₁⟩ := initListHead_ring ((hm tl.active).mpr (by simp))
  have hlive₁ : Live m₁ tl.expire := (ht₁.live _).mpr ((hm tl.expire).mpr (by simp))
  obtain ⟨m₂, hinit₂, hexpire₂, ht₂⟩ := initListHead_ring hlive₁
  refine ⟨⟨m₂, fun _ => none, 0, 0, interval, 0⟩, ?_, ⟨?_, hexpire₂, ?_⟩, rfl⟩
  · change (initListHead m tl.active >>= _) = _
    rw [hinit₁, ok_bind, hinit₂]
    rfl
  · refine ht₂.ring hactive₁ fun x hx hx' => tl.ne ?_
    rw [← List.mem_singleton.mp hx, ← List.mem_singleton.mp hx']
  · refine ⟨by simpa using tl.ne, fun a => (ht₂.live a).trans ((ht₁.live a).trans (hm a)), ?_, ?_⟩
    · intro a fields hsome
      cases hsome
    · intro p hp
      cases hp

/-- `fmtimer_deinit` takes out the entry of a node it has not set yet: it gets to its
end where no timer is active, and nowhere else. -/
theorem fmtimerDeinit_laid {h : TimerHeap} (hl : Laid tl h.links h.nodes ps qs rs) {fuel : ℕ}
    (hfuel : ps.length < fuel) :
    h.fmtimerDeinit tl fuel = if ps = [] then .ok (h, none) else .error .wildAccess := by
  obtain ⟨-, hchain, hlive⟩ :=
    Laid.active_todo (show Laid tl h.links h.nodes ([] ++ ps) qs rs from hl)
  obtain ⟨n, hnext, -⟩ := nextOf_todo hlive hchain
  obtain ⟨fuel, rfl⟩ := Nat.exists_eq_add_of_lt hfuel
  rw [TimerHeap.fmtimerDeinit, forEachSafe, nextOf_eq hl.active.linked_first, ok_bind, hnext,
    ok_bind]
  cases ps with
  | nil => simp [forEachSafeLoop]
  | cons p ps =>
    have hne : p.1 ≠ tl.active := by
      have hnd := hl.active.nodup
      grind
    rw [List.map_cons, List.headD_cons, forEachSafeLoop, if_neg hne, if_neg (List.cons_ne_nil p ps)]
    rfl

/-- `fmtimer_rearm` that has come to its end would do so with more rounds to spare. -/
theorem rearmLoop_mono {h h' : TimerHeap} {timerID newExpire z : ℤ} {fuel fuel' pos n : ℕ}
    (hloop : TimerHeap.rearmLoop tl timerID newExpire fuel pos n h = .ok (h', z))
    (hle : fuel ≤ fuel') :
    TimerHeap.rearmLoop tl timerID newExpire fuel' pos n h = .ok (h', z) := by
  induction fuel generalizing fuel' pos n with
  | zero => cases hloop
  | succ fuel ih =>
    obtain ⟨fuel', rfl⟩ := Nat.exists_eq_add_of_le' hle
    rw [← Nat.add_assoc, TimerHeap.rearmLoop]
    rw [TimerHeap.rearmLoop] at hloop
    split at hloop
    · rw [if_pos ‹_›, hloop]
    · obtain ⟨fields, hread, hloop⟩ := bind_eq_ok.mp hloop
      rw [if_neg ‹_›, hread, ok_bind]
      split at hloop
      · rw [if_pos ‹_›, hloop]
      · obtain ⟨n', hnext, hloop⟩ := bind_eq_ok.mp hloop
        rw [if_neg ‹_›, hnext, ok_bind]
        exact ih hloop (by omega)

/-- So would a step. -/
theorem timerHeapStep_mono {s s' : TimerHeapState} {l : TimerHeapAct} {fuel fuel' : ℕ}
    (hstep : timerHeapStep tl fuel s l = some (.ok s')) (hle : fuel ≤ fuel') :
    timerHeapStep tl fuel' s l = some (.ok s') := by
  cases l with
  | rearm timerID newExpire =>
    obtain ⟨⟨h', z⟩, hrun, hs'⟩ := bind_eq_ok.mp (Option.some.inj hstep)
    obtain ⟨pos, hpos, hrun⟩ := bind_eq_ok.mp hrun
    obtain ⟨n, hn, hrun⟩ := bind_eq_ok.mp hrun
    have hrun' : s.heap.fmtimerRearm tl timerID newExpire.toInt fuel' = .ok (h', z) := by
      rw [TimerHeap.fmtimerRearm, hpos, ok_bind, hn, ok_bind]
      exact rearmLoop_mono hrun hle
    rw [timerHeapStep, hrun']
    exact congrArg some hs'
  | del timerID =>
    obtain ⟨h', hrun, hs'⟩ := bind_eq_ok.mp (Option.some.inj hstep)
    have hrun' : s.heap.fmtimerDel tl timerID fuel' = .ok h' := forEachSafe_mono hrun hle
    rw [timerHeapStep, hrun']
    exact congrArg some hs'
  | tick overflow =>
    obtain ⟨h', hrun, hs'⟩ := bind_eq_ok.mp (Option.some.inj hstep)
    have hrun' : s.heap.clocktickHandler tl overflow fuel' = .ok h' := forEachSafe_mono hrun hle
    rw [timerHeapStep, hrun']
    exact congrArg some hs'
  | handlerRun =>
    obtain ⟨hpc, hstep⟩ := Option.ite_none_right_eq_some.mp hstep
    obtain ⟨⟨h', calls⟩, hrun, hs'⟩ := bind_eq_ok.mp (Option.some.inj hstep)
    have hrun' : s.heap.toHandler tl fuel' = .ok (h', calls) := forEachSafe_mono hrun hle
    rw [timerHeapStep, if_pos hpc, hrun']
    exact congrArg some hs'
  | addDraw a timeout function data => cases a <;> exact hstep
  | addLink _ | tickTest | tickPost | handlerWait => exact hstep

/-- **Timers in memory.** Every run of the timers in memory is a run of the timers, step
by step. In each state it reaches the nodes there are lie in one of the lists or wait to
be linked, as the timers do; every step that can be made, other than one for which
`fm_malloc` has no room, touches no cell that is not there and comes to its end; and
`fmtimer_deinit` would come to its end where no timer is active only. -/
theorem timers_in_memory (tl : TimerHeads) (interval : ℤ) {s₀ s : TimerHeapState}
    {ls : List TimerHeapAct} (hinit : (timerHeaps tl interval).init s₀)
    (hrun : Lts.Run (timerHeaps tl interval) s₀ ls s) :
    ∃ t₀ ks t, (timers interval).init t₀ ∧ Lts.Run (timers interval) t₀ ks t ∧
      List.Forall₂ SameStep ls ks ∧ StandsFor tl s t ∧
      ∀ fuel, t.tl.activeList.length < fuel → t.tl.expireList.length < fuel →
        (∀ l r, timerHeapStep tl fuel s l = some r →
          (∀ timeout function data, l ≠ .addDraw none timeout function data) → ∃ s', r = .ok s') ∧
        s.heap.fmtimerDeinit tl fuel =
          if t.tl.activeList = [] then .ok (s.heap, none) else .error .wildAccess := by
  obtain ⟨heap, timerID, hheap, rfl⟩ := hinit
  obtain ⟨heap', hheap', hlaid, heq⟩ := fmtimerInit_laid tl interval
  obtain rfl : heap' = heap := Except.ok.inj (hheap'.symm.trans hheap)
  have hstands :
      StandsFor tl ⟨heap', timerID, [], 0, 0, .semWait, []⟩ (timerInit interval timerID) := by
    rw [heq] at hlaid ⊢
    exact ⟨[], [], [], hlaid, rfl, rfl, rfl, rfl, rfl, rfl, rfl, rfl, rfl, rfl, rfl, rfl, rfl⟩
  have hdistinct : TimersDistinct (timerInit interval timerID) := by
    intro u
    simp [timerUids, timerInit, fmtimerInit]
  have hstep {s t l s'} (hst : StandsFor tl s t ∧ TimersDistinct t)
      (hl : (timerHeaps tl interval).step s l s') :
      ∃ k t', SameStep l k ∧ (timers interval).step t k t' ∧
        StandsFor tl s' t' ∧ TimersDistinct t' := by
    obtain ⟨⟨ps, qs, rs, hst⟩, ht⟩ := hst
    obtain ⟨fuel, hl⟩ := hl
    have hl' := timerHeapStep_mono hl (le_max_left fuel (ps.length + qs.length + 1))
    have hroom : ∀ timeout function data, l ≠ .addDraw none timeout function data := by
      rintro timeout function data rfl
      cases hl
    obtain ⟨s'', k, t', hr, hsame, htstep, hrep⟩ := hst.step ht ⟨by omega, by omega⟩ hl' hroom
    obtain rfl := Except.ok.inj hr
    exact ⟨k, t', hsame, htstep, hrep, ht.step htstep⟩
  obtain ⟨ks, t, hmatch, hrun', ⟨ps, qs, rs, hst⟩, ht⟩ :=
    hrun.simulated hstep ⟨hstands, hdistinct⟩
  refine ⟨_, ks, t, ⟨timerID, rfl⟩, hrun', hmatch, ⟨ps, qs, rs, hst⟩, fun fuel hps hqs => ?_⟩
  rw [hst.active, List.length_map] at hps
  rw [hst.expire, List.length_map] at hqs
  constructor
  · intro l r hl hroom
    obtain ⟨s', -, -, rfl, -⟩ := hst.step ht ⟨hps, hqs⟩ hl hroom
    exact ⟨s', rfl⟩
  · rw [fmtimerDeinit_laid hst.laid hps, hst.active]
    simp only [List.map_eq_nil_iff]

/-- The next state in memory, where the step comes to its end. -/
def timerHeapNext (tl : TimerHeads) (fuel : ℕ) (s : TimerHeapState) (l : TimerHeapAct) :
    Option TimerHeapState :=
  (timerHeapStep tl fuel s l).bind Except.toOption

theorem step_of_timerHeapNext {interval : ℤ} {fuel : ℕ} {s s' : TimerHeapState} {l : TimerHeapAct}
    (h : timerHeapNext tl fuel s l = some s') : (timerHeaps tl interval).step s l s' := by
  obtain ⟨r, hr, hs'⟩ := Option.bind_eq_some_iff.mp h
  cases r with
  | error e => cases hs'
  | ok s'' =>
    obtain rfl := Option.some.inj hs'
    exact ⟨fuel, hr⟩

/-- A timer that expires and is called. -/
theorem timers_in_memory_one : ∃ s t, s.calls = [(7, 0)] ∧ s.heap.nodes 3 = none ∧
    StandsFor ⟨1, 2, by decide⟩ s t := by
  have hheap : ∃ heap, TimerHeap.fmtimerInit ⟨1, 2, by decide⟩ 10 = .ok heap := ⟨_, rfl⟩
  obtain ⟨heap, hheap⟩ := hheap
  have hfold : ∃ s, [TimerHeapAct.addDraw (some (3, ⟨0, 0⟩)) 5 (some 7) 0, .addLink 3,
      .tick fun _ => 0, .tickTest, .tickPost, .handlerWait, .handlerRun].foldlM
        (timerHeapNext ⟨1, 2, by decide⟩ 3)
        ⟨heap, 0, [], 0, 0, .semWait, []⟩ = some s ∧ s.calls = [(7, 0)] ∧
          s.heap.nodes 3 = none := by
    obtain rfl := Except.ok.inj hheap
    exact ⟨_, rfl, rfl, rfl⟩
  obtain ⟨s, hrun, hcalls, hfreed⟩ := hfold
  obtain ⟨-, -, t, -, -, -, hrep, -⟩ := timers_in_memory ⟨1, 2, by decide⟩ 10 ⟨heap, 0, hheap, rfl⟩
    (Lts.run_of_foldlM_steps step_of_timerHeapNext hrun)
  exact ⟨s, t, hcalls, hfreed, hrep⟩

end TsmVm
