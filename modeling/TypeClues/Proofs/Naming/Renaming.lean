import TypeClues.Proofs.Naming.Interleaving
import TypeClues.Proofs.Variants

/-!
# Resolving only renames

A scope puts a name of its own in place of each variable of a value. The names depend on all that
went on before, on the scope and on every other one of its supply, and they may stand in another
order than the variables did. But within the scope they are apart, so the value is the same up to
names, and they stay, so the scope resolves the value in the same way ever after.
-/
namespace TypeClues

theorem Qualified.mem_vars {q : Qualified} {v : String} : v ∈ q.vars ↔ v ∈ q.names := by
  simp [vars, terms, mem_names, OrderedSet.mem_def, or_comm]

namespace Naming.Session
variable {s s' : Session} {i k : Nat} {l : List String} {ρ ρ' : String → String}

/-- The scope calls the variables in the list by these names. -/
def Calls (s : Session) (i : Nat) (l : List String) (ρ : String → String) : Prop :=
  ∀ v ∈ l, s.name? i v = some (ρ v)

theorem Sound.injOn_calls (hs : s.Sound) (hi : s.supply? i = some k) (h : s.Calls i l ρ) :
    Set.InjOn ρ {v | v ∈ l} := by
  intro v hv w hw he
  have hvname := h v hv
  rw [he] at hvname
  exact (hs.name?_inj hvname (h w hw) hi hi).2

theorem Extends.calls_eq (he : s.Extends s') (h : s.Calls i l ρ) (h' : s'.Calls i l ρ') :
    ∀ v ∈ l, ρ' v = ρ v := by
  intro v hv
  have hname := he.name? (h v hv)
  rw [h' v hv] at hname
  exact Option.some.inj hname

/-- The answer to a request shows the names that the scope has for the variables in the list, and
depends on nothing else. -/
structure Shows (i : Nat) (l : List String) (request : Request)
    (answer : (String → String) → Reply) : Prop where
  run : ∀ (s : Session) (k : Nat), s.supply? i = some k →
    ∃ ρ, (s.run request).1 = answer ρ ∧ (s.run request).2.Calls i l ρ
  congr : ∀ ρ ρ', (∀ v ∈ l, ρ v = ρ' v) → answer ρ = answer ρ'

theorem shows_resolve (i : Nat) (q : Qualified) :
    Shows i q.vars (.resolve i q) fun ρ => .type (q.rename ρ) := by
  constructor
  · intro s k hi
    obtain ⟨sc, hsc⟩ := supply?_eq_some_iff.1 hi
    exact run_resolve hsc q
  · intro ρ ρ' h
    rw [Qualified.rename_congr fun v hv => h v (Qualified.mem_vars.2 hv)]

theorem shows_resolveTerm (i : Nat) (t : Term) :
    Shows i t.vars (.resolveTerm i t) fun ρ => .term (t.rename ρ) := by
  constructor
  · intro s k hi
    obtain ⟨sc, hsc⟩ := supply?_eq_some_iff.1 hi
    exact run_resolveTerm hsc t
  · intro ρ ρ' h
    rw [Term.rename, Term.rename, Term.subst_congr fun v hv => congrArg Term.var (h v hv)]

section Shows
variable {request : Request} {answer : (String → String) → Reply} (h : Shows i l request answer)
include h

theorem Shows.run_eq (he : s.Extends s') (hi : s.supply? i = some k) (hn : s.Calls i l ρ) :
    (s'.run request).1 = answer ρ := by
  obtain ⟨ρ', hr, hn'⟩ := h.run s' k (he.supply? hi)
  rw [hr]
  exact h.congr ρ' ρ ((he.trans (s'.moves_run request).extends).calls_eq hn hn')

/-- The names that an answer shows are apart, and the answer is the same ever after. -/
theorem Shows.exists_names (hs : s.Sound) (hi : s.supply? i = some k) :
    ∃ ρ, (s.run request).1 = answer ρ ∧ (s.run request).2.Calls i l ρ ∧
      Set.InjOn ρ {v | v ∈ l} ∧
      ∀ later, (((s.run request).2.after later).run request).1 = answer ρ := by
  obtain ⟨ρ, hr, hn⟩ := h.run s k hi
  have hmoves := s.moves_run request
  have hi' := hmoves.extends.supply? hi
  refine ⟨ρ, hr, hn, (hs.moves hmoves).injOn_calls hi' hn, ?_⟩
  intro later
  exact h.run_eq (extends_after _ later) hi' hn

end Shows

/-- After any requests a scope resolves a type, and a term, to the same value under the names that
it has for the variables from then on. No two variables and no two constraints become one, whatever
is requested later the answer stays the same, and the canonical form does not change as long as the
constraints have variables of the term only. -/
theorem resolving_renames (requests : List Request) :
    let s := after {} requests
    ∀ i k, s.supply? i = some k →
      (∀ q : Qualified, ∃ r ρ,
        (s.run (.resolve i q)).1 = .type r ∧
        (s.run (.resolve i q)).2.Calls i q.vars ρ ∧
        Qualified.Corresponds ρ q r ∧ r.constraints.size = q.constraints.size ∧
        (∀ later, (((s.run (.resolve i q)).2.after later).run (.resolve i q)).1 = .type r) ∧
        (q.Tied → r.Equivalent q)) ∧
      ∀ t : Term, ∃ u ρ,
        (s.run (.resolveTerm i t)).1 = .term u ∧
        (s.run (.resolveTerm i t)).2.Calls i t.vars ρ ∧
        Set.BijOn ρ {v | v ∈ t.vars} {v | v ∈ u.vars} ∧ u = t.rename ρ ∧
        (∀ later, (((s.run (.resolveTerm i t)).2.after later).run (.resolveTerm i t)).1 = .term u) ∧
        u.Equivalent t := by
  intro s i k hi
  have hs : s.Sound := sound_empty.after requests
  constructor
  · intro q
    obtain ⟨ρ, hr, hn, hvars, hlater⟩ := (shows_resolve i q).exists_names hs hi
    have hinj : Set.InjOn ρ {v | v ∈ q.names} := hvars.mono fun v => Qualified.mem_vars.2
    have hv : q.Variant (q.rename ρ) := ⟨ρ, hinj, rfl⟩
    refine ⟨_, ρ, hr, hn, Qualified.corresponds_rename hinj, ?_, hlater, ?_⟩
    · exact Qualified.size_constraints_rename hinj
    · exact fun ht => (hv.equivalent ht).symm
  · intro t
    obtain ⟨ρ, hr, hn, hinj, hlater⟩ := (shows_resolveTerm i t).exists_names hs hi
    refine ⟨_, ρ, hr, hn, ?_, rfl, hlater, Term.canonical_rename hinj⟩
    exact bijOn_of_mem_iff hinj fun v => by simp [Term.vars_rename]

/-- The other scope has taken the first number of `a`. In the text of the names the variable `a0`
comes before `a`, so the constraints change places. -/
theorem resolving_renames_reordered :
    let s := after {} [.newScope 0, .copyGenerator 0, .newScope 1, .allocateIn 1 "a"]
    let d := fun v : String => Term.app (.atom "D") (.var v)
    let pair := fun v w : String => Term.app (.app (.atom "Pair") (.var v)) (.var w)
    let q := Qualified.of [d "a", d "a0"] (pair "a" "a0")
    s.supply? 0 = some 0 ∧ q.constraints.toList = [d "a", d "a0"] ∧
      ∃ r : Qualified, (s.run (.resolve 0 q)).1 = .type r ∧ r.term = pair "a_2" "a0_1" ∧
        r.constraints.toList = [d "a0_1", d "a_2"] ∧ r.Equivalent q := by
  intro s d pair q
  have hi : s.supply? 0 = some 0 := by decide +kernel
  have hq : q.constraints.toList = [d "a", d "a0"] := by decide +kernel
  obtain ⟨r, ρ, hr, -, -, -, -, he⟩ := (resolving_renames
    [.newScope 0, .copyGenerator 0, .newScope 1, .allocateIn 1 "a"] 0 0 hi).1 q
  have hanswer : (s.run (.resolve 0 q)).1 = .type (.of [d "a0_1", d "a_2"] (pair "a_2" "a0_1")) := by
    decide +kernel
  obtain rfl : r = .of [d "a0_1", d "a_2"] (pair "a_2" "a0_1") :=
    Reply.type.inj (hr.symm.trans hanswer)
  exact ⟨hi, hq, _, hanswer, rfl, by decide +kernel, he (by decide +kernel)⟩

end Naming.Session
end TypeClues
