import TypeClues.Proofs.Engine.Storing
import TypeClues.Proofs.Rule.Assertion
import TypeClues.Proofs.Rule.Repetition

/-!
# Running a rule again

A rule is run again on a clue whenever one of the clue's dependencies has changed, and the change
may be its own work. Where the types have no constraints, a rule that does not look at types finds
its own result again, so that storing it changes nothing and wakes nobody. With constraints this is
so as long as they have no variables but those of the term. A constraint with a variable of its own
is added again by every run.
-/
namespace TypeClues.Engine
variable {σ κ : Type} {e : Engine σ κ} {r : Rule κ} {ids : List ClueId} {types : List Qualified}

theorem refineAll_of_equivalent {l : List (ClueId × Qualified)}
    (h : ∀ x ∈ l, ∀ c, e.at? x.1 = some c → c.type.Equivalent x.2) :
    refineAll l e = (e, []) := by
  induction l with
  | nil => rfl
  | cons x l ih =>
    have hx : e.refine x.1 x.2 = (e, []) := by
      rw [refine]
      cases hc : e.at? x.1 with
      | none => rfl
      | some c => exact if_pos (h x List.mem_cons_self c hc)
    have hl := ih fun y hy => h y (List.mem_cons_of_mem x hy)
    simp only [refineAll, hx, hl]
    rfl

theorem Evolves.nature {e' : Engine σ κ} (h : Evolves e e') (ids : List ClueId) :
    (ids.filterMap e'.at?).map Clue.nature = (ids.filterMap e.at?).map Clue.nature := by
  rw [List.map_filterMap, List.map_filterMap]
  congr 1
  funext j
  have hf := congrArg (Option.map Clue.nature) (h.at?_frame j)
  rwa [Option.map_map, Option.map_map] at hf

theorem WellFormed.equivalent_stored (he : e.WellFormed) (hn : ids.Nodup)
    (hids : ∀ i ∈ ids, ∃ c, e.find? i = some c) (hlen : types.length = ids.length) {i : Nat}
    {id : ClueId} {q : Qualified} {c : Clue σ κ} (hid : ids[i]? = some id)
    (hq : types[i]? = some q) (hc : (refineAll (ids.zip types) e).1.at? id = some c) :
    c.type.Equivalent q := by
  have hissued : ∀ i ∈ ids, e.Issued i := by
    intro i hi
    obtain ⟨c, hc⟩ := hids i hi
    rw [← he.isSome_find?_iff, hc]
    rfl
  have hx : (id, q) ∈ ids.zip types :=
    List.mem_of_getElem? (List.getElem?_zip_eq_some.2 ⟨hid, hq⟩)
  obtain ⟨b, hb⟩ := hids id (List.mem_of_getElem? hid)
  obtain ⟨d, hd, heq⟩ :=
    stores_refineAll hx (fun y hy => he.zip_inj hn hissued hlen y hy (id, q) hx) hb
  obtain rfl : d = c := Option.some.inj ((find?_eq_some_iff.1 hd).1.symm.trans hc)
  exact heq

/-- Running a rule on its own result is idle: if the rule does not look at types, neither it nor its
targets have constraints and no target is named twice, then after storing the types that it ends
with it ends with types again, each equivalent to the one before, and storing them changes
nothing. -/
theorem invoke_again (he : e.WellFormed) (hs : r.script.Blind) (hn : ids.Nodup)
    (hids : ∀ i ∈ ids, ∃ c, e.find? i = some c ∧ c.type.constraints = ∅)
    (hq : ∀ q i, .unifyType q i ∈ Workspace.calls r.script (.new e.policy (ids.filterMap e.at?)) →
      q.constraints = ∅)
    (hv : (e.invoke r ids).1 = .refined types) :
    let e' := (refineAll (ids.zip types) e).1
    ∃ types', (e'.invoke r ids).1 = .refined types' ∧
      List.Forall₂ Qualified.Equivalent types types' ∧
      refineAll (ids.zip types') e' = (e', []) := by
  intro e'
  have hev : Evolves e e' := evolves_refineAll _
  have hat : ∀ i ∈ ids, (e.at? i).isSome := by
    intro i hi
    obtain ⟨c, hc, -⟩ := hids i hi
    rw [(find?_eq_some_iff.1 hc).1]
    rfl
  have hat' : ∀ i ∈ ids, (e'.at? i).isSome := by
    intro i hi
    rw [at?_refineAll, Option.isSome_map]
    exact hat i hi
  have hlen : types.length = ids.length := by
    rw [(Workspace.narrows_of_refined hv).1, List.filterMap_length_eq_length.2 hat]
  have hfind : ∀ i ∈ ids, ∃ c, e.find? i = some c := fun i hi => (hids i hi).imp fun _ h => h.1
  have hsame : ∀ (i : Nat) c q, (ids.filterMap e'.at?)[i]? = some c → types[i]? = some q →
      q.Equivalent c.type := by
    intro i c q hc hqi
    rw [getElem?_filterMap_of_isSome hat'] at hc
    obtain ⟨id, hid, hc⟩ := Option.bind_eq_some_iff.1 hc
    exact (he.equivalent_stored hn hfind hlen hid hqi hc).symm
  have hplain : ∀ c ∈ ids.filterMap e.at?, c.type.constraints = ∅ := by
    intro c hc
    obtain ⟨i, hi, hci⟩ := List.mem_filterMap.1 hc
    obtain ⟨d, hd, hplain⟩ := hids i hi
    obtain rfl : d = c := Option.some.inj ((find?_eq_some_iff.1 hd).1.symm.trans hci)
    exact hplain
  obtain ⟨types', hv', hlen', hall⟩ :=
    Workspace.refined_of_repeated hs hplain hq hv (hev.nature ids) hsame
  refine ⟨types', ?_, ?_, ?_⟩
  · rw [invoke, hev.policy]
    exact hv'
  · refine List.forall₂_iff_get.2 ⟨hlen'.symm, ?_⟩
    intro i hi hi'
    exact hall i _ _ (List.getElem?_eq_getElem hi) (List.getElem?_eq_getElem hi')
  · apply refineAll_of_equivalent
    intro x hx c hc
    obtain ⟨i, hi⟩ := List.mem_iff_getElem?.1 hx
    obtain ⟨hid, hx'⟩ := List.getElem?_zip_eq_some.1 hi
    have hlt : i < types.length := hlen' ▸ (List.getElem?_eq_some_iff.1 hx').1
    have hti := List.getElem?_eq_getElem hlt
    exact (he.equivalent_stored hn hfind hlen hid hti hc).trans (hall i _ _ hti hx')

def listOfSame : Rule (Constant Unit) :=
  ⟨"ListOfSame", .ofStatements [.satisfied, .instantiate 0,
    .unifyType (.plain (.app (.atom "List") (.var "a"))) 0, .unifyClues 0 1]⟩

/-- The types of both clues share a variable in the first run, and nothing in the second. -/
theorem invoke_again_list_of_same :
    let e : Engine String (Constant Unit) :=
      (drive 0 {} [.clue "Hole" "a" nothing [], .clue "Pin" "b" nothing [hole]]).1
    let ids := [⟨"Pin", 1, 2⟩, hole]
    let list : Qualified := .plain (.app (.atom "List") (.var "a_1"))
    let e' := (refineAll (ids.zip [list, list]) e).1
    e.WellFormed ∧ listOfSame.script.Blind ∧ ids.Nodup ∧
      (∀ i ∈ ids, ∃ c, e.find? i = some c ∧ c.type.constraints = ∅) ∧
      (e.invoke listOfSame ids).1 = .refined [list, list] ∧
      ∃ types', (e'.invoke listOfSame ids).1 = .refined types' ∧
        List.Forall₂ Qualified.Equivalent [list, list] types' ∧
        refineAll (ids.zip types') e' = (e', []) := by
  intro e ids list e'
  have he : e.WellFormed := (history_drive 0 {} _).wellFormed
  have hs : listOfSame.script.Blind := Script.blind_ofStatements _
  have hn : ids.Nodup := by decide
  have hids : ∀ i ∈ ids, ∃ c, e.find? i = some c ∧ c.type.constraints = ∅ := by
    have ht : ∀ i ∈ ids, (e.find? i).map Clue.type = some .mostGeneral := by decide +kernel
    intro i hi
    obtain ⟨c, hc, htype⟩ := Option.map_eq_some_iff.1 (ht i hi)
    refine ⟨c, hc, ?_⟩
    rw [htype]
    rfl
  have hq : ∀ q i, .unifyType q i ∈ Workspace.calls listOfSame.script
      (.new e.policy (ids.filterMap e.at?)) → q.constraints = ∅ := by
    intro q i hm
    have hc : Workspace.calls listOfSame.script (.new e.policy (ids.filterMap e.at?)) =
      [.satisfied, .instantiate 0, .note _, .unifyType (.plain (.app (.atom "List") (.var "a"))) 0,
        .unifyClues 0 1] := rfl
    rw [hc] at hm
    simp only [List.mem_cons, reduceCtorEq, false_or, or_false, List.not_mem_nil,
      Call.unifyType.injEq] at hm
    rw [hm.1]
    rfl
  have hv : (e.invoke listOfSame ids).1 = .refined [list, list] := by decide +kernel
  exact ⟨he, hs, hn, hids, hv, invoke_again he hs hn hids hq hv⟩

theorem filterMap_targets {c : Clue σ κ} (h : e.at? c.id = some c) :
    c.targets.filterMap e.at? = c :: c.dependencies.filterMap e.at? := by
  rw [Clue.targets, List.filterMap_cons, h]

def assertion (T : Qualified) : Rule κ := ⟨"assertion", .asserting T⟩

/-- Asserting the same type again, without keys. After all types that the rule ends with have been
stored, the clue has the first of them. Whenever the rule is run again on the clue with this type,
whatever has become of the clues that it depends on, it ends with types. The first of them is the
stored type up to the names of variables unless some constraint of the asserted type has a variable
of its own and another one that the term leaves open; then it has more constraints. Where the term
has all variables of the constraints it is equivalent to the stored type. -/
theorem invoke_assertion_again (he : e.WellFormed) (hp : e.policy.finders = []) (T : Qualified)
    {c : Clue σ κ} (hc : c ∈ e.clues)
    (hv : (e.invoke (assertion T) c.targets).1 = .refined types) :
    ∃ x, types.head? = some x ∧
      (let e' := (refineAll (c.targets.zip types) e).1
      e'.policy = e.policy ∧ e'.Stores (c.id, x)) ∧
      ∀ (e' : Engine σ κ) d, e'.policy = e.policy → e'.find? c.id = some d → d.type.Equivalent x →
        ∃ y ys, (e'.invoke (assertion T) d.targets).1 = .refined (y :: ys) ∧
          (¬ T.Renews x.term → d.type.Variant y) ∧
          (T.Renews x.term → d.type.constraints.size < y.constraints.size) ∧
          (x.Tied → d.type.Equivalent y) := by
  have hkey : ∀ c, e.policy.key? c = none := fun c => by simp [Policy.key?, hp]
  have hlen := (Workspace.narrows_of_refined hv).1
  rw [invoke, filterMap_targets (he.at?_of_mem hc)] at hv
  rw [filterMap_targets (he.at?_of_mem hc)] at hlen
  obtain ⟨x, xs, rfl⟩ := List.exists_cons_of_length_eq_add_one hlen
  refine ⟨x, rfl, ⟨(evolves_refineAll _).policy, he.stores_first hc x xs⟩, ?_⟩
  intro e' d hpol hd hx
  obtain ⟨hat, hid⟩ := find?_eq_some_iff.1 hd
  obtain ⟨y, ys, hy, hmore, hsame, htied⟩ :=
    Workspace.verdict_asserting_again hkey hv hx.symm (d.dependencies.filterMap e'.at?)
  refine ⟨y, ys, ?_, hsame, hmore, htied⟩
  rw [invoke, filterMap_targets (hid ▸ hat), hpol]
  exact hy

/-- The type of lists whose elements are shown, asserted of a pin on a hole. -/
theorem invoke_assertion_again_show_list :
    let T := Qualified.of [.app (.atom "Show") (.var "a")] (.app (.atom "List") (.var "a"))
    let e : Engine String Unit :=
      (drive 0 {} [.clue "Hole" "a" () [], .clue "Pin" "b" () [hole]]).1
    let x := Qualified.of [.app (.atom "Show") (.var "a_1")] (.app (.atom "List") (.var "a_1"))
    let types := [x, .plain (.var "any_2")]
    e.WellFormed ∧ e.policy.finders = [] ∧ ∃ c ∈ e.clues, c.targets = [⟨"Pin", 1, 2⟩, hole] ∧
      (e.invoke (assertion T) c.targets).1 = .refined types ∧ x.Tied ∧
      let e' := (refineAll (c.targets.zip types) e).1
      ∃ d, e'.find? c.id = some d ∧ d.type.Equivalent x ∧ ∃ y ys,
        (e'.invoke (assertion T) d.targets).1 = .refined (y :: ys) ∧ d.type.Equivalent y := by
  intro T e x types
  have he : e.WellFormed := (history_drive 0 {} _).wellFormed
  have hpin : ∃ c ∈ e.clues, c.targets = [⟨"Pin", 1, 2⟩, hole] := by decide +kernel
  obtain ⟨c, hc, ht⟩ := hpin
  have hv : (e.invoke (assertion T) c.targets).1 = .refined types := by
    rw [ht]
    decide +kernel
  have htied : x.Tied := by
    have hvars : ∀ c ∈ x.constraints.toList, ∀ v ∈ c.vars, v ∈ x.term.vars := by decide
    exact hvars
  obtain ⟨x', hx', ⟨hpol, d, hd, hstored⟩, hagain⟩ := invoke_assertion_again he rfl T hc hv
  obtain rfl : x = x' := Option.some.inj hx'
  obtain ⟨y, ys, hy, -, -, hequiv⟩ := hagain _ d hpol hd hstored
  exact ⟨he, rfl, c, hc, ht, hv, htied, d, hd, hstored, y, ys, hy, hequiv htied⟩

/-- A list that can be converted to something has two such constraints after the second run. -/
theorem not_equivalent_asserted_conversion :
    let T := Qualified.of [.app (.app (.atom "Conv") (.var "a")) (.var "b")]
      (.app (.atom "List") (.var "a"))
    let e : Engine String Unit := (drive 0 {} [.clue "Hole" "a" () []]).1
    e.policy.finders = [] ∧ ∃ x d y, (e.invoke (assertion T) [hole]).1 = .refined [x] ∧
      (e.refine hole x).1.at? hole = some d ∧
      ((e.refine hole x).1.invoke (assertion T) [hole]).1 = .refined [y] ∧
      d.type.constraints.size = 1 ∧ y.constraints.size = 2 ∧ ¬ d.type.Equivalent y := by
  intro T e
  let conv (t u : Term) : Term := .app (.app (.atom "Conv") t) u
  let x := Qualified.of [conv (.var "a_1") (.var "b_1")] (.app (.atom "List") (.var "a_1"))
  let y := Qualified.of [conv (.var "var_1_1") (.var "b_1"), conv (.var "var_1_1") (.var "var_2_1")]
    (.app (.atom "List") (.var "var_1_1"))
  have htype : ((e.refine hole x).1.at? hole).map Clue.type =
      some (.of [conv (.var "var_1") (.var "var_2")] (.app (.atom "List") (.var "var_1"))) := by
    decide +kernel
  obtain ⟨d, hd, ht⟩ := Option.map_eq_some_iff.1 htype
  refine ⟨rfl, x, d, y, by decide +kernel, hd, by decide +kernel, ?_⟩
  rw [ht]
  decide +kernel

end TypeClues.Engine
