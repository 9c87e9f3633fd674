import Mathlib.Data.List.Perm.Subperm
import Mathlib.Logic.Relation
import KilnLang.Proofs.Semantic.Aliases

/-!
# The order of aliases

**Theorem (`Resolver.defineEach_exchange`).** Whether the aliases of a unit can be defined does not
depend on their order, and neither does what the names stand for.

The search for a way from a new name back to itself finds one if there is any
(`wayBack?_eq_none`): a way back can be taken without repetition, and then all its names are aliases,
so the size of the table bounds its length. Hence an alias can be defined if its name is new and does
not lead back to itself, and a cycle is found at the last of its names, whatever the order.

Tables with the same aliases (`Same`) differ in the order of definition only, which nothing that
reads a table can see.
-/

namespace KilnLang

namespace AliasTable

variable {t t' t'' : AliasTable}

/-! ## Ways back -/

/-- The target of an alias mentions a name. -/
def Leads (t : AliasTable) (a b : String) : Prop := b ∈ t.mentions a

/-- The target of an alias mentions a name that is not in `chain`. -/
def LeadsOff (t : AliasTable) (chain : List String) (a b : String) : Prop :=
  t.Leads a b ∧ b ∉ chain

theorem Leads.mem_names {a b : String} (h : t.Leads a b) : a ∈ t.entries.map (·.1) := by
  unfold Leads mentions lookup? at h
  cases hentry : t.entries.lookup a with
  | none => simp [hentry] at h
  | some entry =>
    obtain ⟨l, l', hl, -⟩ := List.lookup_eq_some_iff.mp hentry
    rw [hl]
    simp

/-- A way that starts at `a` need not come back to `a`. -/
theorem LeadsOff.restart {chain : List String} {a b : String}
    (h : Relation.ReflTransGen (t.LeadsOff chain) a b) :
    Relation.ReflTransGen (t.LeadsOff (chain ++ [a])) a b := by
  induction h with
  | refl => exact .refl
  | @tail b c _ hstep ih =>
    by_cases hc : c = a
    · exact hc ▸ .refl
    · exact ih.tail ⟨hstep.1, by simp [hstep.2, hc]⟩

/-- What the search finds is a way back. -/
theorem transGen_of_wayBack? {start current : String} {depth : Nat} {chain way : List String}
    (h : t.wayBack? start depth chain current = some way) :
    Relation.TransGen t.Leads current start := by
  induction depth generalizing chain current with
  | zero => exact nomatch h
  | succ depth ih =>
    rw [wayBack?] at h
    obtain ⟨next, hnext, hway⟩ := List.exists_of_findSome?_eq_some h
    split at hway
    · rename_i heq
      exact .single (eq_of_beq heq ▸ hnext)
    · split at hway
      · exact nomatch hway
      · exact .head hnext (ih hway)

/-- The search is deep enough: `chain` without repetition leaves enough depth for the other names. -/
theorem wayBack?_ne_none {start current last : String} {depth : Nat} {chain : List String}
    (hnodup : chain.Nodup) (hcurrent : current ∈ chain)
    (hnames : ∀ name ∈ chain, name ≠ current → name ∈ t.entries.map (·.1))
    (hdepth : t.size < depth + chain.length)
    (hway : Relation.ReflTransGen (t.LeadsOff chain) current last) (hlast : t.Leads last start) :
    t.wayBack? start depth chain current ≠ none := by
  induction depth generalizing chain current with
  | zero =>
    have hmem : current ∈ t.entries.map (·.1) := by
      rcases hway.cases_head with rfl | ⟨next, hnext, -⟩
      · exact hlast.mem_names
      · exact hnext.1.mem_names
    -- A chain without repetitions is no longer than the table, so the depth cannot be used up.
    have hsub : chain ⊆ t.entries.map (·.1) := fun name hname => by
      by_cases heq : name = current
      · exact heq ▸ hmem
      · exact hnames name hname heq
    have hle := (List.subperm_of_subset hnodup hsub).length_le
    rw [List.length_map] at hle
    unfold size at hdepth
    omega
  | succ depth ih =>
    intro hnone
    rw [wayBack?, List.findSome?_eq_none_iff] at hnone
    rcases hway.cases_head with rfl | ⟨next, hnext, hrest⟩
    · have := hnone start hlast
      simp at this
    · have hfound := hnone next hnext.1
      -- The search goes on from the next name, which is on no chain so far.
      have hstart : (next == start) = false := by
        rw [beq_eq_false_iff_ne]
        rintro rfl
        simp at hfound
      have hchain : chain.contains next = false := by simpa using hnext.2
      rw [hstart, hchain, if_neg Bool.false_ne_true, if_neg Bool.false_ne_true] at hfound
      refine ih ?_ (by simp) ?_ ?_ (LeadsOff.restart hrest) hfound
      · refine List.nodup_append.mpr ⟨hnodup, List.pairwise_singleton .., ?_⟩
        rintro name hname _ hlast rfl
        exact hnext.2 (List.mem_singleton.mp hlast ▸ hname)
      · intro name hname hne
        rcases List.mem_append.mp hname with hname | hname
        · by_cases heq : name = current
          · exact heq ▸ hnext.1.mem_names
          · exact hnames name hname heq
        · exact absurd (List.mem_singleton.mp hname) hne
      · rw [List.length_append, List.length_singleton]
        omega

/-- The search fails exactly if the name does not lead back to itself. -/
theorem wayBack?_eq_none {start : String} :
    t.wayBack? start t.size [start] start = none ↔ ¬ Relation.TransGen t.Leads start start := by
  constructor
  · intro hnone hcycle
    obtain ⟨last, hway, hlast⟩ := Relation.TransGen.tail'_iff.mp hcycle
    have hway' : Relation.ReflTransGen (t.LeadsOff []) start last :=
      Relation.ReflTransGen.mono (fun _ _ h => ⟨h, List.not_mem_nil⟩) _ _ hway
    refine wayBack?_ne_none (List.pairwise_singleton ..) (List.mem_singleton_self start) ?_ ?_
      (LeadsOff.restart hway') hlast hnone
    · intro name hname hne
      exact absurd (List.mem_singleton.mp hname) hne
    · rw [List.length_singleton]
      omega
  · intro hcycle
    by_contra hsome
    obtain ⟨way, hway⟩ := Option.ne_none_iff_exists'.mp hsome
    exact hcycle (transGen_of_wayBack? hway)

/-- An alias can be defined exactly if its name is new and does not lead back to itself. -/
theorem define_eq_ok_iff {name : String} {target : AliasTarget} {kind : AliasKind} {span : Span} :
    t.define name target kind span = .ok t' ↔ t.contains name = false ∧
      ¬ Relation.TransGen (t.extend name target kind span).Leads name name ∧
      t.extend name target kind span = t' := by
  rw [define_eq_ok, ← wayBack?_eq_none]
  rfl

/-! ## Tables with the same aliases -/

/-- The tables have the same aliases, defined in any order. -/
structure Same (t t' : AliasTable) : Prop where
  entry : ∀ name, t'.lookup? name = t.lookup? name
  size : t'.size = t.size

namespace Same

theorem refl (t : AliasTable) : Same t t := ⟨fun _ => rfl, rfl⟩

theorem trans (h : Same t t') (h' : Same t' t'') : Same t t'' :=
  ⟨fun name => (h'.entry name).trans (h.entry name), h'.size.trans h.size⟩

theorem kind? (h : Same t t') (name : String) : t'.kind? name = t.kind? name := by
  unfold AliasTable.kind?
  rw [h.entry]

theorem contains (h : Same t t') (name : String) : t'.contains name = t.contains name := by
  unfold AliasTable.contains
  rw [h.kind?]

theorem leads (h : Same t t') : t'.Leads = t.Leads := by
  funext a b
  unfold Leads mentions
  rw [h.entry]

theorem follow (h : Same t t') (depth : Nat) (visiting : List String) (name : String)
    (span : Span) : t'.follow depth visiting name span = t.follow depth visiting name span := by
  induction depth generalizing visiting name span with
  | zero => rfl
  | succ depth ih =>
    simp only [AliasTable.follow, h.entry, h.kind?, ih]

theorem resolve (h : Same t t') (name : String) (span : Span) :
    t'.resolve name span = t.resolve name span := by
  unfold AliasTable.resolve
  rw [h.size, h.follow]

theorem annotate (h : Same t t') (expr : TypeExpr) : t'.annotate expr = t.annotate expr := by
  simp only [AliasTable.annotate, AliasTable.resolveType, h.kind?, h.resolve]

theorem extend (h : Same t t') (name : String) (target : AliasTarget) (kind : AliasKind)
    (span : Span) : Same (t.extend name target kind span) (t'.extend name target kind span) where
  entry other := by
    have := h.entry other
    unfold AliasTable.lookup? at this ⊢
    simp only [AliasTable.extend, List.lookup_cons, this]
  size := congrArg (· + 1) h.size

theorem define (h : Same t t') {name : String} {target : AliasTarget} {kind : AliasKind}
    {span : Span} {s : AliasTable} (hdef : t.define name target kind span = .ok s) :
    ∃ s', t'.define name target kind span = .ok s' ∧ Same s s' := by
  obtain ⟨hfree, hcycle, rfl⟩ := define_eq_ok_iff.mp hdef
  refine ⟨_, define_eq_ok_iff.mpr ⟨?_, ?_, rfl⟩, h.extend name target kind span⟩
  · rw [h.contains, hfree]
  · rwa [(h.extend name target kind span).leads]

end Same

/-! ## Exchanging two aliases -/

section Exchange

variable {a b : String} {ta tb : AliasTarget} {ka kb : AliasKind} {sa sb : Span}

theorem lookup?_extend (other : String) :
    (t.extend a ta ka sa).lookup? other = if other = a then some ⟨ta, ka, sa⟩ else t.lookup? other := by
  unfold lookup? extend
  by_cases h : other = a
  · simp [h]
  · simp [h, List.lookup_cons, show (other == a) = false by simpa using h]

theorem leads_extend {x y : String} (h : x ≠ a) : (t.extend a ta ka sa).Leads x y ↔ t.Leads x y := by
  unfold Leads mentions
  rw [lookup?_extend, if_neg h]

/-- A new alias loses no step of the others. -/
theorem Leads.extend (hfree : t.contains a = false) {x y : String} (h : t.Leads x y) :
    (t.extend a ta ka sa).Leads x y := by
  refine (leads_extend ?_).mpr h
  rintro rfl
  unfold contains kind? at hfree
  unfold Leads mentions at h
  cases hentry : t.lookup? x with
  | none => simp [hentry] at h
  | some entry =>
    rw [hentry] at hfree
    split at hfree <;> simp at hfree

theorem same_extend_extend (hne : a ≠ b) :
    Same ((t.extend a ta ka sa).extend b tb kb sb) ((t.extend b tb kb sb).extend a ta ka sa) where
  entry other := by
    simp only [lookup?_extend]
    by_cases ha : other = a
    · simp [ha, hne]
    · simp [ha]
  size := rfl

/-- A way that uses a step of `b` passes through `b`. -/
theorem transGen_without {r r' : String → String → Prop} {x y : String}
    (hstep : ∀ x y, r x y → x ≠ b → r' x y) (h : Relation.TransGen r x y) :
    Relation.TransGen r' x y ∨ Relation.ReflTransGen r x b ∧ Relation.TransGen r b y := by
  induction h using Relation.TransGen.head_induction_on with
  | @single x hxy =>
    by_cases hx : x = b
    · exact .inr ⟨hx ▸ .refl, hx ▸ .single hxy⟩
    · exact .inl (.single (hstep x y hxy hx))
  | @head x z hxz hzy ih =>
    by_cases hx : x = b
    · exact .inr ⟨hx ▸ .refl, hx ▸ .head hxz hzy⟩
    · rcases ih with ih | ⟨hzb, hby⟩
      · exact .inl (.head (hstep x z hxz hx) ih)
      · exact .inr ⟨.head hxz hzb, hby⟩

/-- Two aliases can be defined in either order. -/
theorem define_exchange (ha : t.define a ta ka sa = .ok t')
    (hb : t'.define b tb kb sb = .ok t'') :
    ∃ s s', t.define b tb kb sb = .ok s ∧ s.define a ta ka sa = .ok s' ∧ Same t'' s' := by
  obtain ⟨hfreeA, hcycleA, rfl⟩ := define_eq_ok_iff.mp ha
  obtain ⟨hfreeB, hcycleB, rfl⟩ := define_eq_ok_iff.mp hb
  rw [contains_extend, Bool.or_eq_false_iff] at hfreeB
  have hne : a ≠ b := fun h => by simp [h] at hfreeB
  have hsame : Same ((t.extend a ta ka sa).extend b tb kb sb)
      ((t.extend b tb kb sb).extend a ta ka sa) := same_extend_extend hne
  have hfreeA' : (t.extend b tb kb sb).contains a = false := by
    rw [contains_extend, hfreeA, Bool.or_false]
    simpa using hne
  refine ⟨_, _, define_eq_ok_iff.mpr ⟨hfreeB.2, fun hcycle => ?_, rfl⟩,
    define_eq_ok_iff.mpr ⟨hfreeA', fun hcycle => ?_, rfl⟩, hsame⟩
  · -- A cycle through `b` without `a` is one with `a`.
    refine hcycleB ?_
    rw [← hsame.leads]
    exact Relation.TransGen.mono (fun _ _ h => h.extend hfreeA') _ _ hcycle
  · -- A cycle through `a` passes through `b`, or was there before `b`.
    rw [hsame.leads] at hcycle
    rcases transGen_without (fun _ _ h hx => (leads_extend hx).mp h) hcycle with h | ⟨hab, hba⟩
    · exact hcycleA h
    · exact hcycleB (hba.trans_left hab)

end Exchange

end AliasTable

namespace Resolver

open AliasTable (Same)

variable {t t' s : AliasTable} {n m : Node} {ns : List Node}

theorem defineEach_cons :
    defineEach t (n :: ns) = .ok t' ↔ ∃ s, defineEach t [n] = .ok s ∧ defineEach s ns = .ok t' := by
  obtain ⟨item, rfl⟩ | hn := isAlias_cases n
  · simp only [defineEach]
    cases t.define item.name.text (targetOf item.target) .type item.name.span <;> simp
  · simp only [defineEach_other hn, defineEach, Except.ok.injEq, exists_eq_left']

theorem defineEach_append {ms : List Node} :
    defineEach t (ns ++ ms) = .ok t' ↔ ∃ s, defineEach t ns = .ok s ∧ defineEach s ms = .ok t' := by
  induction ns generalizing t with
  | nil => simp [defineEach]
  | cons n ns ih =>
    rw [List.cons_append, defineEach_cons]
    simp only [ih, @defineEach_cons t _ n ns]
    constructor
    · rintro ⟨s, hn, s', hns, hms⟩
      exact ⟨s', ⟨s, hn, hns⟩, hms⟩
    · rintro ⟨s', ⟨s, hn, hns⟩, hms⟩
      exact ⟨s, hn, s', hns, hms⟩

theorem defineEach_alias {item : Alias} :
    defineEach t [.alias item] = .ok t' ↔
      t.define item.name.text (targetOf item.target) .type item.name.span = .ok t' := by
  simp only [defineEach]
  cases t.define item.name.text (targetOf item.target) .type item.name.span <;> simp

/-- The same aliases can be added to tables with the same aliases. -/
theorem defineEach_same (hsame : Same t s) (h : defineEach t ns = .ok t') :
    ∃ s', defineEach s ns = .ok s' ∧ Same t' s' := by
  induction ns generalizing t s with
  | nil =>
    obtain rfl : t = t' := Except.ok.inj h
    exact ⟨s, rfl, hsame⟩
  | cons n ns ih =>
    obtain ⟨t₁, hn, hns⟩ := defineEach_cons.mp h
    obtain ⟨item, rfl⟩ | hother := isAlias_cases n
    · obtain ⟨s₁, hdef, hsame₁⟩ := hsame.define (defineEach_alias.mp hn)
      obtain ⟨s', hs', hsame'⟩ := ih hsame₁ hns
      exact ⟨s', defineEach_cons.mpr ⟨s₁, defineEach_alias.mpr hdef, hs'⟩, hsame'⟩
    · rw [defineEach_other hother] at hn
      obtain rfl : t = t₁ := Except.ok.inj hn
      rw [defineEach_other hother]
      exact ih hsame hns

theorem defineEach_pair (h : defineEach t [n, m] = .ok t') :
    ∃ s', defineEach t [m, n] = .ok s' ∧ Same t' s' := by
  obtain ⟨a, rfl⟩ | hn := isAlias_cases n
  · obtain ⟨b, rfl⟩ | hm := isAlias_cases m
    · obtain ⟨t₁, ha, hb⟩ := defineEach_cons.mp h
      obtain ⟨s, s', hb', ha', hsame⟩ :=
        AliasTable.define_exchange (defineEach_alias.mp ha) (defineEach_alias.mp hb)
      exact ⟨s', defineEach_cons.mpr ⟨s, defineEach_alias.mpr hb', defineEach_alias.mpr ha'⟩, hsame⟩
    · obtain ⟨t₁, ha, hm'⟩ := defineEach_cons.mp h
      rw [defineEach_other hm] at hm' ⊢
      obtain rfl : t₁ = t' := Except.ok.inj hm'
      exact ⟨t₁, ha, .refl _⟩
  · rw [defineEach_other hn] at h
    refine ⟨t', defineEach_cons.mpr ⟨t', h, ?_⟩, .refl _⟩
    rw [defineEach_other hn, defineEach]

/-- Neighbours may be exchanged. -/
theorem defineEach_exchange {front rest : List Node}
    (h : defineEach t (front ++ n :: m :: rest) = .ok t') :
    ∃ s', defineEach t (front ++ m :: n :: rest) = .ok s' ∧ Same t' s' := by
  rw [show front ++ n :: m :: rest = front ++ ([n, m] ++ rest) from rfl, defineEach_append] at h
  obtain ⟨t₁, hfront, h⟩ := h
  obtain ⟨t₂, hpair, hrest⟩ := defineEach_append.mp h
  obtain ⟨s₂, hpair', hsame⟩ := defineEach_pair hpair
  obtain ⟨s', hrest', hsame'⟩ := defineEach_same hsame hrest
  exact ⟨s', defineEach_append.mpr ⟨t₁, hfront, defineEach_append.mpr ⟨s₂, hpair', hrest'⟩⟩, hsame'⟩

theorem AnnotatedAlias.same (hsame : Same t s) (h : AnnotatedAlias t n m) :
    AnnotatedAlias s n m := by
  rcases h with ⟨type⟩ | other
  · exact .alias ((hsame.annotate _).trans type)
  · exact .other other

end Resolver

end KilnLang
