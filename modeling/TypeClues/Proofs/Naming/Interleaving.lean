import TypeClues.Naming.Session
import TypeClues.Proofs.Naming.Hygiene

/-!
# Scopes in use at the same time

Requests to generators, their copies and any number of scopes may come in any order. Whatever the
order, a scope calls a variable by one name for good, and names of scopes on the same supply are
equal only for one scope and one variable. The answers of a scope show these names and no others.
-/
namespace TypeClues

namespace Hygienic

theorem issue {ι : Type} {supply : Supply} {scope : ι → Scope} (h : Hygienic supply scope)
    (word : String) : Hygienic (supply.allocate word).2 scope :=
  ⟨fun k a ha => Nat.le_trans (h.issued k a ha) List.count_le_count_cons, h.apart⟩

/-- One supply and its scopes change, the others stay. -/
theorem update {ι κ : Type} [DecidableEq κ] {supply : κ → Supply} {scope : κ → ι → Scope}
    (h : ∀ l, Hygienic (supply l) (scope l)) (k : κ) {supply' : Supply} {scope' : ι → Scope}
    (hk : Hygienic supply' scope') (l : κ) :
    Hygienic (Function.update supply k supply' l) (Function.update scope k scope' l) := by
  by_cases hl : l = k
  · subst hl
    rw [Function.update_self, Function.update_self]
    exact hk
  · rw [Function.update_of_ne hl, Function.update_of_ne hl]
    exact h l

end Hygienic

namespace Naming.Session

def after (s : Session) (requests : List Request) : Session :=
  requests.foldl (fun s r => (s.run r).2) s

/-- The supply with a number; before it is made it has issued nothing. -/
def supplyAt (s : Session) (k : Nat) : Supply := s.supplies.getD k {}

/-- What a request can do to a session. -/
inductive Moves (s : Session) : Session → Prop
  | idle : Moves s s
  | generator : Moves s { s with
      supplies := s.supplies ++ [{}], generators := s.generators ++ [s.supplies.length] }
  | copy {k : Nat} (hk : k ∈ s.generators) : Moves s { s with generators := s.generators ++ [k] }
  | scope {k : Nat} (hk : k ∈ s.generators) : Moves s { s with scopes := s.scopes ++ [(k, {})] }
  | issue {k : Nat} (hk : k ∈ s.generators) (word : String) :
      Moves s { s with supplies := s.supplies.set k ((s.supplyAt k).allocate word).2 }
  | draw {i k : Nat} {sc : Scope} (hi : s.scopes[i]? = some (k, sc)) (names : List String) :
      Moves s { s with
        supplies := s.supplies.set k (sc.reserve names (s.supplyAt k)).2
        scopes := s.scopes.set i (k, (sc.reserve names (s.supplyAt k)).1) }

theorem moves_withScope (s : Session) (i : Nat) {α : Type} (encode : α → Reply)
    {act : Scope → Supply → α × Scope × Supply} (names : List String)
    (hact : ∀ sc supply, (act sc supply).2 = sc.reserve names supply) :
    s.Moves (s.withScope i encode act).2 := by
  rw [withScope]
  split
  · exact .idle
  · next k sc hi =>
    simp only [hact]
    exact .draw hi names

theorem moves_run (s : Session) (r : Request) : s.Moves (s.run r).2 := by
  cases r with
  | newGenerator => exact .generator
  | copyGenerator g =>
    rw [run]
    split
    · exact .idle
    · next hg => exact .copy (List.mem_of_getElem? hg)
  | newScope g =>
    rw [run]
    split
    · exact .idle
    · next hg => exact .scope (List.mem_of_getElem? hg)
  | allocate g name =>
    rw [run]
    split
    · exact .idle
    · next hg => exact .issue (List.mem_of_getElem? hg) name
  | allocateIn i name => exact s.moves_withScope i _ [name] fun _ _ => rfl
  | resolve i q => exact s.moves_withScope i _ q.vars fun _ _ => rfl
  | resolveTerm i t => exact s.moves_withScope i _ t.vars fun _ _ => rfl

/-! ## Names stay -/

/-- Every generator and every scope is still there, on its supply, and no allocation is gone. -/
structure Extends (s s' : Session) : Prop where
  generators : ∀ (g k : Nat), s.generators[g]? = some k → s'.generators[g]? = some k
  scopes : ∀ (i k : Nat) (sc : Scope), s.scopes[i]? = some (k, sc) →
    ∃ sc', s'.scopes[i]? = some (k, sc') ∧ sc.Extends sc'

theorem Extends.refl (s : Session) : s.Extends s :=
  ⟨fun _ _ h => h, fun _ _ sc h => ⟨sc, h, .refl sc⟩⟩

theorem Extends.trans {s s' s'' : Session} (h : s.Extends s') (h' : s'.Extends s'') :
    s.Extends s'' := by
  refine ⟨fun g k hg => h'.generators g k (h.generators g k hg), ?_⟩
  intro i k sc hs
  obtain ⟨sc', hs', he⟩ := h.scopes i k sc hs
  obtain ⟨sc'', hs'', he'⟩ := h'.scopes i k sc' hs'
  exact ⟨sc'', hs'', he.trans he'⟩

private theorem getElem?_append_of_eq_some {α : Type} {l : List α} {i : Nat} {a : α}
    (h : l[i]? = some a) (m : List α) : (l ++ m)[i]? = some a := by
  rw [List.getElem?_append_left (List.getElem?_eq_some_iff.1 h).1, h]

theorem Moves.extends {s s' : Session} (h : s.Moves s') : s.Extends s' := by
  have stay := Extends.refl s
  cases h with
  | idle => exact stay
  | generator => exact ⟨fun _ _ h => getElem?_append_of_eq_some h _, stay.scopes⟩
  | copy => exact ⟨fun _ _ h => getElem?_append_of_eq_some h _, stay.scopes⟩
  | scope =>
    exact ⟨stay.generators, fun _ _ sc h => ⟨sc, getElem?_append_of_eq_some h _, .refl sc⟩⟩
  | issue => exact ⟨stay.generators, stay.scopes⟩
  | @draw i k sc hi names =>
    refine ⟨stay.generators, ?_⟩
    intro j l sc' hj
    by_cases hij : i = j
    · subst hij
      rw [hi] at hj
      cases hj
      have hlt : i < s.scopes.length := (List.getElem?_eq_some_iff.1 hi).1
      exact ⟨_, List.getElem?_set_self hlt, Scope.extends_reserve names _ _⟩
    · exact ⟨sc', by rw [List.getElem?_set_ne hij, hj], .refl sc'⟩

theorem extends_after (s : Session) (requests : List Request) : s.Extends (s.after requests) := by
  induction requests generalizing s with
  | nil => exact .refl s
  | cons r rs ih => exact (s.moves_run r).extends.trans (ih _)

/-! ## Names are apart -/

/-- The scope at a position, empty unless it is there and on the supply. -/
def scopeOn (s : Session) (k i : Nat) : Scope :=
  match s.scopes[i]? with
  | some (l, sc) => if l = k then sc else {}
  | none => {}

theorem scopeOn_of_getElem? {s : Session} {i k : Nat} {sc : Scope}
    (h : s.scopes[i]? = some (k, sc)) : s.scopeOn k i = sc := by
  rw [scopeOn, h]
  simp

/-- Generators and scopes have supplies, and the scopes of one supply are hygienic. -/
structure Sound (s : Session) : Prop where
  generators : ∀ k ∈ s.generators, k < s.supplies.length
  scopes : ∀ e ∈ s.scopes, e.1 < s.supplies.length
  hygienic : ∀ k, Hygienic (s.supplyAt k) (s.scopeOn k)

theorem sound_empty : Sound {} := by
  refine ⟨by simp, by simp, ?_⟩
  intro k
  exact .of_empty _

theorem supplyAt_append {s s' : Session} (h : s'.supplies = s.supplies ++ [({} : Supply)]) :
    s'.supplyAt = s.supplyAt := by
  funext k
  rw [supplyAt, supplyAt, h, List.getD_eq_getElem?_getD, List.getD_eq_getElem?_getD]
  by_cases hk : k < s.supplies.length
  · rw [List.getElem?_append_left hk]
  · have hle := Nat.le_of_not_lt hk
    rw [List.getElem?_append_right hle, List.getElem?_eq_none hle, List.getElem?_singleton]
    split <;> rfl

theorem supplyAt_set {s s' : Session} {k : Nat} {supply : Supply}
    (h : s'.supplies = s.supplies.set k supply) (hk : k < s.supplies.length) :
    s'.supplyAt = Function.update s.supplyAt k supply := by
  funext l
  by_cases hl : l = k
  · subst hl
    simp [supplyAt, h, hk]
  · simp [supplyAt, h, Function.update_of_ne hl, List.getElem?_set_ne (Ne.symm hl)]

theorem scopeOn_set {s s' : Session} {i k : Nat} {sc sc' : Scope}
    (h : s'.scopes = s.scopes.set i (k, sc')) (hi : s.scopes[i]? = some (k, sc)) :
    s'.scopeOn = Function.update s.scopeOn k (Function.update (s.scopeOn k) i sc') := by
  have hlt : i < s.scopes.length := (List.getElem?_eq_some_iff.1 hi).1
  funext l j
  by_cases hj : j = i
  · subst hj
    rw [scopeOn, h, List.getElem?_set_self hlt]
    by_cases hl : l = k
    · simp [hl]
    · simp [scopeOn, hi, hl, Ne.symm hl]
  · rw [scopeOn, h, List.getElem?_set_ne (Ne.symm hj)]
    by_cases hl : l = k
    · rw [hl, Function.update_self, Function.update_of_ne hj, scopeOn]
    · rw [Function.update_of_ne hl, scopeOn]

theorem scopeOn_append {s s' : Session} {k : Nat}
    (h : s'.scopes = s.scopes ++ [(k, ({} : Scope))]) : s'.scopeOn = s.scopeOn := by
  funext l j
  rw [scopeOn, scopeOn, h]
  by_cases hj : j < s.scopes.length
  · rw [List.getElem?_append_left hj]
  · have hle := Nat.le_of_not_lt hj
    rw [List.getElem?_append_right hle, List.getElem?_eq_none hle, List.getElem?_singleton]
    by_cases h0 : j - s.scopes.length = 0
    · simp [h0]
    · simp [h0]

/-- A supply or scope that is not made yet counts as an empty one, so making it changes nothing;
what a scope draws is fresh on its own supply. -/
theorem Sound.moves {s s' : Session} (h : s.Sound) (hm : s.Moves s') : s'.Sound := by
  cases hm with
  | idle => exact h
  | generator =>
    refine ⟨?_, ?_, ?_⟩
    · intro k hk
      rw [List.length_append, List.length_singleton]
      rcases List.mem_append.1 hk with hk | hk
      · have := h.generators k hk
        omega
      · have := List.mem_singleton.1 hk
        omega
    · intro e he
      have := h.scopes e he
      rw [List.length_append, List.length_singleton]
      omega
    · intro k
      rw [supplyAt_append rfl]
      exact h.hygienic k
  | copy hk =>
    refine ⟨?_, h.scopes, h.hygienic⟩
    intro l hl
    rcases List.mem_append.1 hl with hl | hl
    · exact h.generators l hl
    · rw [List.mem_singleton.1 hl]
      exact h.generators _ hk
  | scope hk =>
    refine ⟨h.generators, ?_, ?_⟩
    · intro e he
      rcases List.mem_append.1 he with he | he
      · exact h.scopes e he
      · rw [List.mem_singleton.1 he]
        exact h.generators _ hk
    · intro l
      rw [scopeOn_append rfl]
      exact h.hygienic l
  | @issue k hk word =>
    refine ⟨?_, ?_, ?_⟩
    · simpa using h.generators
    · simpa using h.scopes
    · rw [supplyAt_set rfl (h.generators k hk)]
      intro l
      have hu := Hygienic.update h.hygienic k ((h.hygienic k).issue word) l
      rw [Function.update_eq_self] at hu
      exact hu
  | @draw i k sc hi names =>
    have hlt := h.scopes _ (List.mem_of_getElem? hi)
    have hr := (h.hygienic k).reserve i names
    rw [scopeOn_of_getElem? hi] at hr
    refine ⟨?_, ?_, ?_⟩
    · simpa using h.generators
    · intro e he
      rw [List.length_set]
      rcases List.mem_or_eq_of_mem_set he with he | rfl
      · exact h.scopes e he
      · exact hlt
    · rw [supplyAt_set rfl hlt, scopeOn_set rfl hi]
      exact Hygienic.update h.hygienic k hr

theorem Sound.after {s : Session} (h : s.Sound) (requests : List Request) :
    (s.after requests).Sound := by
  induction requests generalizing s with
  | nil => exact h
  | cons r rs ih => exact ih (h.moves (s.moves_run r))

/-! ## Names that answers show -/

/-- What a scope calls a variable, once it has met it. -/
def name? (s : Session) (scope : Nat) (v : String) : Option String :=
  s.scopes[scope]?.bind fun e => (e.2.find? v).map Allocation.name

def supply? (s : Session) (scope : Nat) : Option Nat := s.scopes[scope]?.map Prod.fst

variable {s : Session} {i : Nat}

theorem name?_eq_some_iff {v n : String} :
    s.name? i v = some n ↔
      ∃ k sc a, s.scopes[i]? = some (k, sc) ∧ sc.find? v = some a ∧ a.name = n := by
  simp [name?, Option.bind_eq_some_iff]

theorem supply?_eq_some_iff {k : Nat} :
    s.supply? i = some k ↔ ∃ sc, s.scopes[i]? = some (k, sc) := by
  simp [supply?]

theorem Extends.name? {s' : Session} (h : s.Extends s') {v n : String}
    (hn : s.name? i v = some n) : s'.name? i v = some n := by
  obtain ⟨k, sc, a, hi, ha, he⟩ := name?_eq_some_iff.1 hn
  obtain ⟨sc', hi', hx⟩ := h.scopes i k sc hi
  exact name?_eq_some_iff.2 ⟨k, sc', a, hi', hx v a ha, he⟩

theorem Extends.supply? {s' : Session} (h : s.Extends s') {k : Nat} (hk : s.supply? i = some k) :
    s'.supply? i = some k := by
  obtain ⟨sc, hi⟩ := supply?_eq_some_iff.1 hk
  obtain ⟨sc', hi', -⟩ := h.scopes i k sc hi
  exact supply?_eq_some_iff.2 ⟨sc', hi'⟩

theorem Sound.name?_inj (h : s.Sound) {j k : Nat} {v w n : String} (hi : s.name? i v = some n)
    (hj : s.name? j w = some n) (hk : s.supply? i = some k) (hl : s.supply? j = some k) :
    i = j ∧ v = w := by
  obtain ⟨k₁, sc, a, hi, ha, hn⟩ := name?_eq_some_iff.1 hi
  obtain ⟨k₂, sc', b, hj, hb, hn'⟩ := name?_eq_some_iff.1 hj
  obtain rfl : k₁ = k := by simpa [supply?, hi] using hk
  obtain rfl : k₂ = k₁ := by simpa [supply?, hj] using hl
  apply (h.hygienic k₂).resolved_inj (a := a) (b := b)
  · rw [scopeOn_of_getElem? hi, ha]
  · rw [scopeOn_of_getElem? hj, hb]
  · rw [hn, hn']

theorem withScope_of_getElem? {k : Nat} {sc : Scope} (hi : s.scopes[i]? = some (k, sc)) {α : Type}
    (encode : α → Reply) (act : Scope → Supply → α × Scope × Supply) :
    s.withScope i encode act = (encode (act sc (s.supplyAt k)).1, { s with
      supplies := s.supplies.set k (act sc (s.supplyAt k)).2.2
      scopes := s.scopes.set i (k, (act sc (s.supplyAt k)).2.1) }) := by
  rw [withScope, hi]
  rfl

theorem name?_withScope {k : Nat} {sc : Scope} (hi : s.scopes[i]? = some (k, sc)) {α : Type}
    (encode : α → Reply) (act : Scope → Supply → α × Scope × Supply) {v : String} {a : Allocation}
    (ha : (act sc (s.supplyAt k)).2.1.find? v = some a) :
    (s.withScope i encode act).2.name? i v = some a.name := by
  rw [withScope_of_getElem? hi, name?_eq_some_iff]
  refine ⟨k, _, a, ?_, ha, rfl⟩
  exact List.getElem?_set_self (List.getElem?_eq_some_iff.1 hi).1

theorem run_allocateIn {k : Nat} {sc : Scope} (hi : s.scopes[i]? = some (k, sc)) (v : String) :
    ∃ number serial, (s.run (.allocateIn i v)).1 = .allocation ⟨v, number, serial⟩ ∧
      (s.run (.allocateIn i v)).2.name? i v = some (v ++ "_" ++ toString number) := by
  have ha := Scope.find?_allocate v sc (s.supplyAt k)
  have hn := name?_withScope hi .allocation (Scope.allocate v) ha
  have hr := congrArg Prod.fst (withScope_of_getElem? hi .allocation (Scope.allocate v))
  have hw := Scope.word_of_find? ha
  generalize (Scope.allocate v sc (s.supplyAt k)).1 = a at hn hr hw
  obtain ⟨word, number, serial⟩ := a
  cases hw
  exact ⟨number, serial, hr, hn⟩

theorem name?_reserve {k : Nat} {sc : Scope} (hi : s.scopes[i]? = some (k, sc)) {α : Type}
    (encode : α → Reply) (act : Scope → Supply → α × Scope × Supply) {names : List String}
    (hact : (act sc (s.supplyAt k)).2.1 = (sc.reserve names (s.supplyAt k)).1) {v : String}
    (hv : v ∈ names) :
    (s.withScope i encode act).2.name? i v =
      some ((sc.reserve names (s.supplyAt k)).1.resolved v) := by
  have hs := Scope.isSome_find?_reserve hv sc (s.supplyAt k)
  obtain ⟨a, ha⟩ := Option.isSome_iff_exists.1 hs
  rw [Scope.resolved_of_find? ha]
  apply name?_withScope hi
  rw [hact, ha]

theorem run_resolve {k : Nat} {sc : Scope} (hi : s.scopes[i]? = some (k, sc)) (q : Qualified) :
    ∃ ρ : String → String, (s.run (.resolve i q)).1 = .type (q.rename ρ) ∧
      ∀ v ∈ q.vars, (s.run (.resolve i q)).2.name? i v = some (ρ v) := by
  refine ⟨_, congrArg Prod.fst (withScope_of_getElem? hi .type (Scope.resolve q)), ?_⟩
  exact fun v hv => name?_reserve hi .type (Scope.resolve q) rfl hv

theorem run_resolveTerm {k : Nat} {sc : Scope} (hi : s.scopes[i]? = some (k, sc)) (t : Term) :
    ∃ ρ : String → String, (s.run (.resolveTerm i t)).1 = .term (t.rename ρ) ∧
      ∀ v ∈ t.vars, (s.run (.resolveTerm i t)).2.name? i v = some (ρ v) := by
  refine ⟨_, congrArg Prod.fst (withScope_of_getElem? hi .term (Scope.resolveTerm t)), ?_⟩
  exact fun v hv => name?_reserve hi .term (Scope.resolveTerm t) rfl hv

theorem run_copyGenerator {g k : Nat} (hg : s.generators[g]? = some k) :
    ∃ h, (s.run (.copyGenerator g)).1 = .position h ∧
      (s.run (.copyGenerator g)).2.generators[h]? = some k := by
  rw [run, hg]
  exact ⟨_, rfl, List.getElem?_concat_length⟩

theorem run_newScope {g k : Nat} (hg : s.generators[g]? = some k) :
    ∃ i, (s.run (.newScope g)).1 = .position i ∧
      (s.run (.newScope g)).2.supply? i = some k := by
  rw [run, hg]
  exact ⟨_, rfl, supply?_eq_some_iff.2 ⟨{}, List.getElem?_concat_length⟩⟩

/-- In every interleaving of requests a scope keeps the names that its answers show. Copies of a
generator and scopes made from them share its supply for good, and on one supply equal names come
from one scope and one variable, at whatever times. -/
theorem names_hygienic (earlier later : List Request) :
    let s := after {} earlier
    let s' := s.after later
    (∀ i v n, s.name? i v = some n →
      s'.name? i v = some n ∧ ∃ number : Nat, n = v ++ "_" ++ toString number) ∧
    (∀ i j k v w n, s.supply? i = some k → s'.supply? j = some k →
      s.name? i v = some n → s'.name? j w = some n → i = j ∧ v = w) ∧
    (∀ i k, s.supply? i = some k →
      s'.supply? i = some k ∧
      (∀ v, ∃ number serial, (s.run (.allocateIn i v)).1 = .allocation ⟨v, number, serial⟩ ∧
        (s.run (.allocateIn i v)).2.name? i v = some (v ++ "_" ++ toString number)) ∧
      (∀ q, ∃ ρ : String → String, (s.run (.resolve i q)).1 = .type (q.rename ρ) ∧
        ∀ v ∈ q.vars, (s.run (.resolve i q)).2.name? i v = some (ρ v)) ∧
      (∀ t, ∃ ρ : String → String, (s.run (.resolveTerm i t)).1 = .term (t.rename ρ) ∧
        ∀ v ∈ t.vars, (s.run (.resolveTerm i t)).2.name? i v = some (ρ v))) ∧
    (∀ g k, s.generators[g]? = some k →
      s'.generators[g]? = some k ∧
      (∃ h, (s.run (.copyGenerator g)).1 = .position h ∧
        (s.run (.copyGenerator g)).2.generators[h]? = some k) ∧
      (∃ i, (s.run (.newScope g)).1 = .position i ∧
        (s.run (.newScope g)).2.supply? i = some k)) := by
  intro s s'
  have he : s.Extends s' := s.extends_after later
  have hs : s'.Sound := (sound_empty.after earlier).after later
  refine ⟨?_, ?_, ?_, ?_⟩
  · intro i v n hn
    obtain ⟨k, sc, a, -, ha, rfl⟩ := name?_eq_some_iff.1 hn
    exact ⟨he.name? hn, a.number, by rw [Allocation.name, Scope.word_of_find? ha]⟩
  · intro i j k v w n hi hj hv hw
    exact hs.name?_inj (he.name? hv) hw (he.supply? hi) hj
  · intro i k hi
    obtain ⟨sc, hsc⟩ := supply?_eq_some_iff.1 hi
    exact ⟨he.supply? hi, run_allocateIn hsc, run_resolve hsc, run_resolveTerm hsc⟩
  · intro g k hg
    exact ⟨he.generators g k hg, run_copyGenerator hg, run_newScope hg⟩

/-- Two scopes, one of them through a copied generator, with a base name that looks numbered. -/
theorem names_hygienic_numbered_base :
    let s := after {} [.newScope 0, .copyGenerator 0, .newScope 1, .resolveTerm 0 (.var "a_1"),
      .allocateIn 1 "a"]
    let s' := s.after [.resolveTerm 1 (.var "a_1"), .allocate 1 "a_1", .allocateIn 0 "a"]
    s.name? 0 "a_1" = some "a_1_1" ∧ s.name? 1 "a" = some "a_1" ∧
      s'.name? 0 "a_1" = some "a_1_1" ∧ s'.name? 1 "a_1" = some "a_1_2" ∧
      ∀ j w, s'.supply? j = some 0 → s'.name? j w = some "a_1_1" → j = 0 ∧ w = "a_1" := by
  intro s s'
  have h0 : s.name? 0 "a_1" = some "a_1_1" := by decide +kernel
  obtain ⟨stays, apart, -⟩ := names_hygienic [.newScope 0, .copyGenerator 0, .newScope 1,
    .resolveTerm 0 (.var "a_1"), .allocateIn 1 "a"] [.resolveTerm 1 (.var "a_1"),
    .allocate 1 "a_1", .allocateIn 0 "a"]
  refine ⟨h0, by decide +kernel, (stays 0 "a_1" "a_1_1" h0).1, by decide +kernel, ?_⟩
  intro j w hj hw
  have hij := apart 0 j 0 "a_1" w "a_1_1" (by decide +kernel) hj h0 hw
  exact ⟨hij.1.symm, hij.2.symm⟩

end Naming.Session
end TypeClues
