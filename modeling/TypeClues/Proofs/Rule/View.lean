import TypeClues.Rule.Workspace

/-!
# What a rule sees of a clue

A rule sees the kind, the source, the constant and the type of a clue, and nothing else: which clue
it is, and what depends on it, makes no difference to how a script runs and ends.
-/
namespace TypeClues

/-- All that a rule sees of a clue. -/
def Clue.face {σ κ : Type} (c : Clue σ κ) : String × σ × κ × Qualified :=
  (c.kind, c.source, c.constant, c.type)

namespace Workspace
variable {σ κ : Type} {w : Workspace σ κ} {ts : List (Clue σ κ)}

def retarget (ts : List (Clue σ κ)) (w : Workspace σ κ) : Workspace σ κ := { w with targets := ts }

theorem getElem?_map_of_face {α : Type} (h : ts.map Clue.face = w.targets.map Clue.face)
    (f : String × σ × κ × Qualified → α) (i : Nat) :
    ts[i]?.map (fun c => f c.face) = w.targets[i]?.map (fun c => f c.face) := by
  have hi : (ts.map Clue.face)[i]?.map f = (w.targets.map Clue.face)[i]?.map f := by rw [h]
  simpa [List.getElem?_map, Function.comp_def] using hi

theorem face_cases (h : ts.map Clue.face = w.targets.map Clue.face) (i : Nat) :
    (ts[i]? = none ∧ w.targets[i]? = none) ∨
      ∃ c d, ts[i]? = some c ∧ w.targets[i]? = some d ∧ c.face = d.face := by
  have hi := getElem?_map_of_face h id i
  cases hc : ts[i]? with
  | none =>
    cases hd : w.targets[i]? with
    | none => exact .inl ⟨rfl, rfl⟩
    | some d => simp [hc, hd] at hi
  | some c =>
    cases hd : w.targets[i]? with
    | none => simp [hc, hd] at hi
    | some d => exact .inr ⟨c, d, rfl, rfl, by simpa [hc, hd] using hi⟩

theorem fail_retarget (h : ts.map Clue.face = w.targets.map Clue.face) (c : Complaint)
    (blame : List Nat) : (w.retarget ts).fail c blame = (w.fail c blame).retarget ts := by
  have hs : (blame.filterMap fun i => ts[i]?).map Clue.source =
      (blame.filterMap fun i => w.targets[i]?).map Clue.source := by
    rw [List.map_filterMap, List.map_filterMap]
    congr 1
    funext i
    exact getElem?_map_of_face h (fun f => f.2.1) i
  cases hf : w.failure with
  | some d => simp only [fail, retarget, hf]
  | none =>
    simp only [fail, retarget, hf, hs]
    rfl

theorem resolveType_retarget (q : Qualified) :
    (w.retarget ts).resolveType q = ((w.resolveType q).1, (w.resolveType q).2.retarget ts) := rfl

theorem resolveTarget_retarget {c d : Clue σ κ} (h : c.face = d.face) (i : Nat) :
    (w.retarget ts).resolveTarget i c =
      ((w.resolveTarget i d).1, (w.resolveTarget i d).2.retarget ts) := by
  have ht : c.type = d.type := congrArg (fun f => f.2.2.2) h
  simp only [resolveTarget, ht]
  rfl

theorem unify_retarget (h : ts.map Clue.face = w.targets.map Clue.face) (a b : Qualified)
    (c : Complaint) (blame : List Nat) :
    (w.retarget ts).unify a b c blame = (w.unify a b c blame).retarget ts := by
  simp only [unify]
  cases hr : (w.store.unify w.policy a b).1 with
  | ok _ => simp only [retarget, hr]
  | error x =>
    simp only [retarget, hr]
    exact fail_retarget (w := { w with store := (w.store.unify w.policy a b).2 }) h c blame

theorem unifyType_retarget (h : ts.map Clue.face = w.targets.map Clue.face) (q : Qualified)
    (i : Nat) : (w.retarget ts).unifyType q i = (w.unifyType q i).retarget ts := by
  have hf : (w.retarget ts).failure = w.failure := rfl
  have ht : (w.retarget ts).targets = ts := rfl
  rw [unifyType, unifyType, hf, ht]
  cases w.failure with
  | some d => rfl
  | none =>
    rcases face_cases h i with ⟨hc, hd⟩ | ⟨c, d, hc, hd, hface⟩
    · rw [hc, hd]
      exact fail_retarget h _ _
    · rw [hc, hd]
      simp only [resolveType_retarget, resolveTarget_retarget hface]
      exact unify_retarget (w := ((w.resolveType q).2.resolveTarget i d).2) h _ _ _ _

theorem unifyClues_retarget (h : ts.map Clue.face = w.targets.map Clue.face) (i j : Nat) :
    (w.retarget ts).unifyClues i j = (w.unifyClues i j).retarget ts := by
  have hf : (w.retarget ts).failure = w.failure := rfl
  have ht : (w.retarget ts).targets = ts := rfl
  rw [unifyClues, unifyClues, hf, ht]
  cases w.failure with
  | some d => rfl
  | none =>
    rcases face_cases h i with ⟨hc, hd⟩ | ⟨c, d, hc, hd, hface⟩
    · rw [hc, hd]
      exact fail_retarget h _ _
    rcases face_cases h j with ⟨hc', hd'⟩ | ⟨c', d', hc', hd', hface'⟩
    · rw [hc, hd, hc', hd']
      exact fail_retarget h _ _
    · rw [hc, hd, hc', hd']
      simp only [resolveTarget_retarget hface, resolveTarget_retarget hface']
      exact unify_retarget (w := ((w.resolveTarget i d).2.resolveTarget j d').2) h _ _ _ _

theorem instantiateTarget_retarget (h : ts.map Clue.face = w.targets.map Clue.face) (i : Nat) :
    (w.retarget ts).instantiateTarget i =
      ((w.instantiateTarget i).1, (w.instantiateTarget i).2.retarget ts) := by
  have ht : (w.retarget ts).targets = ts := rfl
  rw [instantiateTarget, instantiateTarget, ht]
  rcases face_cases h i with ⟨hc, hd⟩ | ⟨c, d, hc, hd, hface⟩
  · rw [hc, hd]
  · rw [hc, hd]
    simp only [resolveTarget_retarget hface]
    rfl

theorem instantiate_retarget (h : ts.map Clue.face = w.targets.map Clue.face) (i : Nat) :
    (w.retarget ts).instantiate i =
      ((w.instantiate i).1, (w.instantiate i).2.retarget ts) := by
  have hf : (w.retarget ts).failure = w.failure := rfl
  rw [instantiate, instantiate, hf]
  cases w.failure with
  | some d => rfl
  | none => simp only [instantiateTarget_retarget h]

theorem targets_of_retarget {w' : Workspace σ κ} (h : w' = w'.retarget w.targets) :
    w'.targets = w.targets := by
  rw [h]
  rfl

/-- A script runs alike on clues of the same faces. -/
theorem run_retarget (s : Script κ) (h : ts.map Clue.face = w.targets.map Clue.face) :
    run s (w.retarget ts) = (run s w).retarget ts := by
  have ht : ∀ w : Workspace σ κ, (w.retarget ts).targets = ts := fun _ => rfl
  induction s generalizing w with
  | done => rfl
  | arity next ih =>
    have hl : ts.length = w.targets.length := by simpa using congrArg List.length h
    rw [run, run, ht, hl]
    exact ih _ h
  | kind i next ih =>
    have hi : ts[i]?.map Clue.kind = w.targets[i]?.map Clue.kind :=
      getElem?_map_of_face h (fun f => f.1) i
    rw [run, run, ht, hi]
    exact ih _ h
  | constant i next ih =>
    have hi : ts[i]?.map Clue.constant = w.targets[i]?.map Clue.constant :=
      getElem?_map_of_face h (fun f => f.2.2.1) i
    rw [run, run, ht, hi]
    exact ih _ h
  | instantiate i next ih =>
    have hk : (w.instantiate i).2.targets = w.targets :=
      targets_of_retarget (congrArg Prod.snd (instantiate_retarget (w := w) rfl i))
    rw [run, run, instantiate_retarget h]
    exact ih _ (hk ▸ h)
  | satisfied next ih =>
    rw [run, run]
    exact ih (w := { w with satisfied := true }) h
  | fail message blame next ih =>
    have hk := targets_of_retarget (fail_retarget (w := w) rfl (.stated message) blame)
    rw [run, run, fail_retarget h]
    exact ih (hk ▸ h)
  | unifyType q i next ih =>
    have hk := targets_of_retarget (unifyType_retarget (w := w) rfl q i)
    rw [run, run, unifyType_retarget h]
    exact ih (hk ▸ h)
  | unifyClues i j next ih =>
    have hk := targets_of_retarget (unifyClues_retarget (w := w) rfl i j)
    rw [run, run, unifyClues_retarget h]
    exact ih (hk ▸ h)
  | note o next ih =>
    rw [run, run]
    exact ih (w := { w with seen := w.seen ++ [o] }) h

theorem instantiateEach_retarget (h : ts.map Clue.face = w.targets.map Clue.face) (is : List Nat) :
    instantiateEach is (w.retarget ts) = instantiateEach is w := by
  have ht : (w.retarget ts).targets = ts := rfl
  induction is generalizing w with
  | nil => rfl
  | cons i is ih =>
    have hk : (w.instantiateTarget i).2.targets = w.targets :=
      targets_of_retarget (congrArg Prod.snd (instantiateTarget_retarget (w := w) rfl i))
    have hs : ts[i]?.toList.map Clue.source = w.targets[i]?.toList.map Clue.source := by
      rcases face_cases h i with ⟨hc, hd⟩ | ⟨c, d, hc, hd, hface⟩
      · rw [hc, hd]
      · rw [hc, hd]
        exact congrArg (fun f => [f.2.1]) hface
    rw [instantiateEach, instantiateEach, instantiateTarget_retarget h, ht, hs]
    simp only [ih (hk ▸ h) rfl]
    rfl

theorem verdict_retarget (h : ts.map Clue.face = w.targets.map Clue.face) :
    (w.retarget ts).verdict = w.verdict := by
  have hl : ts.length = w.targets.length := by simpa using congrArg List.length h
  have hf : (w.retarget ts).failure = w.failure := rfl
  have ht : (w.retarget ts).targets = ts := rfl
  rw [verdict, verdict, hf, ht, hl, instantiateEach_retarget h]
  rfl

/-- How a script ends, and what it saw, is decided by the faces of the clues. -/
theorem run_new_of_face (p : Policy) (s : Script κ) {ts us : List (Clue σ κ)}
    (h : ts.map Clue.face = us.map Clue.face) :
    (run s (new p ts)).verdict = (run s (new p us)).verdict ∧
      (run s (new p ts)).seen = (run s (new p us)).seen := by
  have hl : ts.length = us.length := by simpa using congrArg List.length h
  have hn : new p ts = (new p us).retarget ts := by
    simp only [new, retarget, List.map_const', hl]
  have hk : (run s (new p us)).targets = us :=
    targets_of_retarget (run_retarget (w := new p us) s rfl)
  rw [hn, run_retarget s h]
  exact ⟨verdict_retarget (h.trans (congrArg _ hk.symm)), rfl⟩

end Workspace
end TypeClues
