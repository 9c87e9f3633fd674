import KilnLang.Proofs.Semantic.PartTransport
import KilnLang.Proofs.Semantic.Reordering

/-!
# Exchanging two parts of a unit

Two neighbours of a unit whose order does not matter can be declared, and resolved, in either order:
the numbers of what they declare are exchanged, and nothing else changes.

**Why.** Let the first part lead from `e₀` to `e₁` and the second from `e₁` to `e₂`. The second part
sees little of the first one, so it runs as well from `e₀`; the first part sees little of the second
one, so it runs as well after it. Each part is followed by the same part under other numbers
(`Env.Twins`), and the two frames (`Env.Touches`) say that everything that one of them changes was
left alone by the other (`Diamond.twins`).
-/

namespace KilnLang

/-! ## Exchanging two blocks of numbers -/

/-- Exchanges the `k` numbers from `first` on with the `l` numbers after them. -/
def exchangeBlocks (first k l : Nat) : Equiv.Perm Nat where
  toFun x :=
    if x < first then x else if x < first + k then x + l
    else if x < first + k + l then x - k else x
  invFun x :=
    if x < first then x else if x < first + l then x + k
    else if x < first + l + k then x - l else x
  left_inv x := by dsimp only; split_ifs <;> omega
  right_inv x := by dsimp only; split_ifs <;> omega

section Blocks

variable {first k l x : Nat}

theorem exchangeBlocks_of_lt (h : x < first) : exchangeBlocks first k l x = x := if_pos h

theorem exchangeBlocks_left (h : first ≤ x) (h' : x < first + k) :
    exchangeBlocks first k l x = x + l := by
  show (if x < first then x else if x < first + k then x + l
    else if x < first + k + l then x - k else x) = _
  split_ifs <;> omega

theorem exchangeBlocks_right (h : first + k ≤ x) (h' : x < first + k + l) :
    exchangeBlocks first k l x = x - k := by
  show (if x < first then x else if x < first + k then x + l
    else if x < first + k + l then x - k else x) = _
  split_ifs <;> omega

theorem exchangeBlocks_of_ge (h : first + k + l ≤ x) : exchangeBlocks first k l x = x := by
  show (if x < first then x else if x < first + k then x + l
    else if x < first + k + l then x - k else x) = _
  split_ifs <;> omega

end Blocks

/-- The renumbering exchanges the numbers from `d₀` to `d₁` with those from `d₁` to `d₂`, and keeps
the others from `start` to `stop`. -/
structure Exchanges (ρ : Equiv.Perm Nat) (start d₀ d₁ d₂ stop : Nat) : Prop where
  before : Moves ρ start start d₀
  first : Moves ρ d₀ (d₀ + (d₂ - d₁)) d₁
  second : Moves ρ d₁ d₀ d₂
  after : Moves ρ d₂ d₂ stop

/-- Two exchanges, one after the other, in two ranges of numbers. -/
theorem exists_exchanges {d₀ d₁ d₂ start l₀ l₁ l₂ : Nat} (hd : d₀ ≤ d₁ ∧ d₁ ≤ d₂ ∧ d₂ ≤ start)
    (hl : start ≤ l₀ ∧ l₀ ≤ l₁ ∧ l₁ ≤ l₂) (stop : Nat) :
    ∃ ρ : Equiv.Perm Nat, Exchanges ρ 0 d₀ d₁ d₂ start ∧ Exchanges ρ start l₀ l₁ l₂ stop := by
  have hlow : ∀ x < l₀, exchangeBlocks l₀ (l₁ - l₀) (l₂ - l₁) x = x :=
    fun x hx => exchangeBlocks_of_lt hx
  have hhigh : ∀ x, d₂ ≤ x → exchangeBlocks d₀ (d₁ - d₀) (d₂ - d₁) x = x :=
    fun x hx => exchangeBlocks_of_ge (by omega)
  refine ⟨(exchangeBlocks l₀ (l₁ - l₀) (l₂ - l₁)).trans (exchangeBlocks d₀ (d₁ - d₀) (d₂ - d₁)),
    ⟨?_, ?_, ?_, ?_⟩, ?_, ?_, ?_, ?_⟩
  all_goals
    intro x hle hlt
    rw [Equiv.trans_apply]
  · rw [hlow x (by omega), exchangeBlocks_of_lt hlt]
  · rw [hlow x (by omega), exchangeBlocks_left hle (by omega)]
    omega
  · rw [hlow x (by omega), exchangeBlocks_right (by omega) (by omega)]
    omega
  · rw [hlow x (by omega), hhigh x hle]
  · rw [hlow x hlt, hhigh x (by omega)]
  · rw [hhigh _ (by rw [exchangeBlocks_left hle (by omega)]; omega),
      exchangeBlocks_left hle (by omega)]
    omega
  · rw [hhigh _ (by rw [exchangeBlocks_right (by omega) (by omega)]; omega),
      exchangeBlocks_right (by omega) (by omega)]
    omega
  · rw [hhigh _ (by rw [exchangeBlocks_of_ge (by omega)]; omega), exchangeBlocks_of_ge (by omega)]

/-! ## Steps that leave each other alone -/

namespace Env.Twins

variable {ρ : Equiv.Perm DeclId} {start start' : Nat} {P : DeclId → Prop} {Q : String → Prop}
  {env env' : Env}

/-- Counting can start again at any time. -/
theorem restart (h : Twins ρ start start' P Q env env') :
    Twins ρ env.context.decls.length env'.context.decls.length P Q env env' :=
  ⟨h.aliases, h.bridge, h.vargs, h.limit, h.scopes, h.heads, h.entries, Nat.le_refl _,
    Nat.add_comm _ _⟩

theorem unit_scope (h : Twins ρ start start' P Q env env') {top : Scope}
    (hscopes : env.scopes = [top]) : ∃ top', env'.scopes = [top'] ∧ Scope.Twins ρ Q top top' := by
  have hall := h.scopes
  rw [hscopes, List.forall₂_cons_left_iff] at hall
  obtain ⟨top', outer, htop, houter, hscopes'⟩ := hall
  rw [List.forall₂_nil_left_iff] at houter
  exact ⟨top', houter ▸ hscopes', htop⟩

/-- The entries of the unit's scope are in both tables. -/
theorem unit_entry (h : Twins ρ start start' P Q env env') {top : Scope}
    (hscopes : env.scopes = [top]) {name : String} {id : DeclId} (hname : Q name)
    (hid : top.lookup name = some id) :
    ∃ info info', env.context.decls[id]? = some info ∧
      env'.context.decls[ρ id]? = some info' ∧ info'.head = info.head :=
  h.heads top (hscopes ▸ List.mem_singleton_self top) name id hname hid

/-- A step on the left that leaves `P` and `Q` alone. -/
theorem skipLeft (h : Twins ρ start start' (fun _ => True) (fun _ => True) env env')
    {W : DeclId → Prop} {R : String → Prop} {env₁ : Env} (htouches : env.Touches W R env₁)
    (hold : ∀ id < env₁.context.decls.length, P id → id < env.context.decls.length ∧ ¬ W id)
    (hnames : ∀ name, Q name → ¬ R name) :
    Twins ρ env₁.context.decls.length env'.context.decls.length P Q env₁ env' := by
  obtain ⟨top, top₁, hscopes, hscopes₁, hlook⟩ := htouches.scopes
  obtain ⟨top', hscopes', htop⟩ := h.unit_scope hscopes
  obtain ⟨⟨hdecls, haliases, hbridge⟩, hvargs, hlimit⟩ := htouches.grows
  refine ⟨haliases ▸ h.aliases, hbridge ▸ h.bridge, hvargs ▸ h.vargs, hlimit ▸ h.limit, ?_, ?_, ?_,
    Nat.le_refl _, Nat.add_comm _ _⟩
  · rw [hscopes₁, hscopes']
    refine .cons (fun name hname => ?_) .nil
    rw [hlook name (hnames name hname), htop name trivial]
  · intro scope hscope name id hname hid
    rw [hscopes₁, List.mem_singleton] at hscope
    rw [hscope, hlook name (hnames name hname)] at hid
    obtain ⟨info, info', hinfo, hinfo', hhead⟩ := h.unit_entry hscopes trivial hid
    obtain ⟨info₁, hinfo₁, hhead₁⟩ := hdecls.getElem? hinfo
    exact ⟨info₁, info', hinfo₁, hinfo', hhead.trans hhead₁.symm⟩
  · intro id hlt hP
    obtain ⟨hlt', hW⟩ := hold id hlt hP
    rw [htouches.entries id hlt' hW]
    exact h.entries id hlt' trivial

/-- A step on the right that leaves `P` and `Q` alone. -/
theorem skipRight (h : Twins ρ start start' (fun _ => True) (fun _ => True) env env')
    {W : DeclId → Prop} {R : String → Prop} {env₁' : Env} (htouches : env'.Touches W R env₁')
    (hold : ∀ id < env.context.decls.length, P id → ¬ W (ρ id))
    (hnames : ∀ name, Q name → ¬ R name) :
    Twins ρ env.context.decls.length env₁'.context.decls.length P Q env env₁' := by
  obtain ⟨top', top₁', hscopes', hscopes₁', hlook⟩ := htouches.scopes
  obtain ⟨⟨hdecls, haliases, hbridge⟩, hvargs, hlimit⟩ := htouches.grows
  refine ⟨haliases ▸ h.aliases, hbridge.trans h.bridge, hvargs.trans h.vargs,
    hlimit.trans h.limit, ?_, ?_, ?_, Nat.le_refl _, Nat.add_comm _ _⟩
  · have hall := h.scopes
    rw [hscopes', List.forall₂_cons_right_iff] at hall
    obtain ⟨top, outer, htop, houter, hscopes⟩ := hall
    rw [List.forall₂_nil_right_iff] at houter
    rw [hscopes, houter, hscopes₁']
    refine .cons (fun name hname => ?_) .nil
    rw [hlook name (hnames name hname), htop name trivial]
  · intro scope hscope name id hname hid
    obtain ⟨info, info', hinfo, hinfo', hhead⟩ := h.heads scope hscope name id trivial hid
    obtain ⟨info₁, hinfo₁, hhead₁⟩ := hdecls.getElem? hinfo'
    exact ⟨info, info₁, hinfo, hinfo₁, hhead₁.trans hhead⟩
  · intro id hlt hP
    have hget := h.entries id hlt trivial
    have hlt' : ρ id < env'.context.decls.length := by
      rw [List.getElem?_eq_getElem hlt, Option.map_some] at hget
      exact (List.getElem?_eq_some_iff.mp hget).1
    rw [htouches.entries _ hlt' (hold id hlt hP), hget]

theorem mono (h : Twins ρ start start' P Q env env') {Q' : String → Prop}
    (hQ : ∀ name, Q' name → Q name) : Twins ρ start start' P Q' env env' :=
  ⟨h.aliases, h.bridge, h.vargs, h.limit,
    h.scopes.imp fun _ _ hscope name hname => hscope name (hQ name hname),
    fun scope hscope name id hname => h.heads scope hscope name id (hQ name hname),
    h.entries, h.first, h.aligned⟩

end Env.Twins

theorem Env.Touches.mono {W : DeclId → Prop} {Q Q' : String → Prop} {env env' : Env}
    (h : env.Touches W Q env') (hQ : ∀ name, Q name → Q' name) : env.Touches W Q' env' := by
  obtain ⟨top, top', hscopes, hscopes', hlook⟩ := h.scopes
  exact ⟨h.grows, ⟨top, top', hscopes, hscopes', fun name hname =>
    hlook name fun hbad => hname (hQ name hbad)⟩, h.entries⟩

theorem Node.declares_renumberDecl {ρ : DeclId → DeclId} (name : String) (n : Node) :
    (n.renumberDecl ρ).declares name = n.declares name := by
  cases n <;> rfl

theorem Node.decl?_renumberDecl {ρ : DeclId → DeclId} (n : Node) :
    (n.renumberDecl ρ).decl? = n.decl?.map ρ := by
  cases n <;> rfl

/-- A step for the part `n` and a step for the part `m`, in either order: from `e₀` over `e₁` to
`e₂`, and from `e₀'` over `e₁'` to `e₂'`. Each part touches its own declaration and name only, and
does the same in both orders. -/
structure Diamond (ρ : Equiv.Perm DeclId) (n m : Node) (e₀ e₁ e₂ e₀' e₁' e₂' : Env) : Prop where
  corner : Env.Twins ρ e₀.context.decls.length e₀'.context.decls.length (fun _ => True)
    (fun _ => True) e₀ e₀'
  length : e₀'.context.decls.length = e₀.context.decls.length
  first : e₀.Touches (n.decl? = some ·) (n.declares ·) e₁
  second : e₁.Touches (m.decl? = some ·) (m.declares ·) e₂
  second' : e₀'.Touches ((m.renumberDecl ρ).decl? = some ·) (m.declares ·) e₁'
  first' : e₁'.Touches ((n.renumberDecl ρ).decl? = some ·) (n.declares ·) e₂'
  firstTwins : Env.Twins ρ e₀.context.decls.length e₁'.context.decls.length
    (fun id => n.decl? = some id ∨ e₀.context.decls.length ≤ id) (n.declares ·) e₁ e₂'
  secondTwins : Env.Twins ρ e₁.context.decls.length e₀'.context.decls.length
    (fun id => m.decl? = some id ∨ e₁.context.decls.length ≤ id) (m.declares ·) e₂ e₁'
  old : ∀ id, n.decl? = some id → id < e₁.context.decls.length
  decls : ∀ id, n.decl? = some id → m.decl? ≠ some id
  names : ∀ name, n.declares name → ¬ m.declares name

namespace Diamond

variable {ρ : Equiv.Perm DeclId} {n m : Node} {e₀ e₁ e₂ e₀' e₁' e₂' : Env}

/-- Every declaration has been changed by the same part in both orders, or by none. -/
theorem entry (h : Diamond ρ n m e₀ e₁ e₂ e₀' e₁' e₂') {id : DeclId}
    (hlt : id < e₂.context.decls.length) : e₂'.context.decls[ρ id]? =
      (e₂.context.decls[id]?).map (·.refill (.renumber ρ)) := by
  have hskip : ∀ info, e₁'.context.decls[ρ id]? = some info → n.decl? ≠ some id →
      e₂'.context.decls[ρ id]? = e₁'.context.decls[ρ id]? := by
    intro info hinfo hn
    refine h.first'.entries _ (List.getElem?_eq_some_iff.mp hinfo).1 fun hbad => hn ?_
    rw [Node.decl?_renumberDecl] at hbad
    exact Option.map_injective ρ.injective hbad
  by_cases hn : n.decl? = some id
  · have hlt₁ := h.old id hn
    rw [h.firstTwins.entries id hlt₁ (.inl hn), h.second.entries id hlt₁ (h.decls id hn)]
  by_cases hm : m.decl? = some id ∨ e₁.context.decls.length ≤ id
  · have hget := h.secondTwins.entries id hlt hm
    rw [List.getElem?_eq_getElem hlt, Option.map_some] at hget ⊢
    rw [hskip _ hget hn, hget]
  · obtain ⟨hm, hlt₁⟩ := not_or.mp hm
    have hlt₁ : id < e₁.context.decls.length := Nat.lt_of_not_le hlt₁
    rw [h.second.entries id hlt₁ hm]
    by_cases hnew : e₀.context.decls.length ≤ id
    · exact h.firstTwins.entries id hlt₁ (.inr hnew)
    · have hlt₀ : id < e₀.context.decls.length := Nat.lt_of_not_le hnew
      have hget := h.corner.entries id hlt₀ trivial
      rw [List.getElem?_eq_getElem hlt₀, Option.map_some] at hget
      have hget₁ := h.second'.entries _ (List.getElem?_eq_some_iff.mp hget).1 fun hbad => hm (by
        rw [Node.decl?_renumberDecl] at hbad
        exact Option.map_injective ρ.injective hbad)
      rw [h.first.entries id hlt₀ hn, hskip _ (hget₁.trans hget) hn, hget₁, hget,
        List.getElem?_eq_getElem hlt₀, Option.map_some]

/-- Every name has been declared by the same part in both orders, or by none. -/
theorem scopes (h : Diamond ρ n m e₀ e₁ e₂ e₀' e₁' e₂') : ∃ top top', e₂.scopes = [top] ∧
    e₂'.scopes = [top'] ∧ (∀ name, top'.lookup name = (top.lookup name).map ρ) ∧
      ∀ name id, top.lookup name = some id → id < e₂.context.decls.length := by
  obtain ⟨top₀, top₁, hscopes₀, hscopes₁, hlook₁⟩ := h.first.scopes
  obtain ⟨_, top₂, heq, hscopes₂, hlook₂⟩ := h.second.scopes
  obtain rfl : top₁ = _ := List.singleton_inj.mp (hscopes₁.symm.trans heq)
  obtain ⟨top₀', top₁', hscopes₀', hscopes₁', hlook₁'⟩ := h.second'.scopes
  obtain ⟨_, top₂', heq', hscopes₂', hlook₂'⟩ := h.first'.scopes
  obtain rfl : top₁' = _ := List.singleton_inj.mp (hscopes₁'.symm.trans heq')
  refine ⟨top₂, top₂', hscopes₂, hscopes₂', fun name => ?_, fun name id hid => ?_⟩
  · by_cases hn : n.declares name
    · obtain ⟨top, hscopes, htop⟩ := h.firstTwins.unit_scope hscopes₁
      obtain rfl : top₂' = top := List.singleton_inj.mp (hscopes₂'.symm.trans hscopes)
      rw [htop name hn, hlook₂ name (h.names name hn)]
    by_cases hm : m.declares name
    · obtain ⟨top, hscopes, htop⟩ := h.secondTwins.unit_scope hscopes₂
      obtain rfl : top₁' = top := List.singleton_inj.mp (hscopes₁'.symm.trans hscopes)
      rw [hlook₂' name hn, htop name hm]
    · obtain ⟨top, hscopes, htop⟩ := h.corner.unit_scope hscopes₀
      obtain rfl : top₀' = top := List.singleton_inj.mp (hscopes₀'.symm.trans hscopes)
      rw [hlook₂' name hn, hlook₁' name hm, htop name trivial, hlook₂ name hm, hlook₁ name hn]
  · by_cases hm : m.declares name
    · obtain ⟨info, _, hinfo, -⟩ := h.secondTwins.unit_entry hscopes₂ hm hid
      exact (List.getElem?_eq_some_iff.mp hinfo).1
    rw [hlook₂ name hm] at hid
    refine Nat.lt_of_lt_of_le ?_ h.second.grows.context.decls.length_le
    by_cases hn : n.declares name
    · obtain ⟨info, _, hinfo, -⟩ := h.firstTwins.unit_entry hscopes₁ hn hid
      exact (List.getElem?_eq_some_iff.mp hinfo).1
    · rw [hlook₁ name hn] at hid
      obtain ⟨info, _, hinfo, -⟩ := h.corner.unit_entry hscopes₀ trivial hid
      exact Nat.lt_of_lt_of_le (List.getElem?_eq_some_iff.mp hinfo).1
        h.first.grows.context.decls.length_le

theorem length_eq (h : Diamond ρ n m e₀ e₁ e₂ e₀' e₁' e₂') :
    e₂'.context.decls.length = e₂.context.decls.length := by
  have hlength := h.length
  have hfirst := h.firstTwins.aligned
  have hsecond := h.secondTwins.aligned
  omega

/-- Both orders lead to the same place. -/
theorem twins (h : Diamond ρ n m e₀ e₁ e₂ e₀' e₁' e₂') :
    Env.Twins ρ e₂.context.decls.length e₂'.context.decls.length (fun _ => True) (fun _ => True)
      e₂ e₂' := by
  obtain ⟨top, top', hscopes, hscopes', hlook, hfound⟩ := h.scopes
  have hgrows := h.first.grows.trans h.second.grows
  have hgrows' := h.second'.grows.trans h.first'.grows
  refine ⟨?_, ?_, ?_, ?_, ?_, ?_, fun id hlt _ => h.entry hlt, Nat.le_refl _, Nat.add_comm _ _⟩
  · rw [hgrows.context.aliases, hgrows'.context.aliases]
    exact h.corner.aliases
  · rw [hgrows'.context.bridge, h.corner.bridge, hgrows.context.bridge]
  · rw [hgrows'.vargs, h.corner.vargs, hgrows.vargs]
  · rw [hgrows'.limit, h.corner.limit, hgrows.limit]
  · rw [hscopes, hscopes']
    exact .cons (fun name _ => hlook name) .nil
  · intro scope hscope name id _ hid
    rw [hscopes, List.mem_singleton] at hscope
    have hlt := hfound name id (hscope ▸ hid)
    have hget := h.entry hlt
    rw [List.getElem?_eq_getElem hlt, Option.map_some] at hget
    exact ⟨_, _, List.getElem?_eq_getElem hlt, hget, rfl⟩

end Diamond

/-! ## Two parts in either order -/

namespace Resolver

variable {ρ : Equiv.Perm DeclId} {n m n₁ m₁ : Node} {e₀ e₁ e₂ e₀' : Env} {top : Scope}

/-- Only one of two parts whose order does not matter is a global. -/
theorem globalCount_eq_zero (hfree : ¬ n.Ordered m) : globalCount n = 0 ∨ globalCount m = 0 := by
  cases n with
  | global g =>
    cases m with
    | global g' => exact absurd trivial hfree
    | _ => exact .inr rfl
  | _ => exact .inl rfl

theorem declareNode_exchange {order : Nat} (hn : Succeeds (declareNode order n) e₀ n₁ e₁)
    (hm : Succeeds (declareNode (order + globalCount n) m) e₁ m₁ e₂) (hfree : ¬ n.Ordered m)
    (hscopes : e₀.scopes = [top]) (hdecls : ∀ id, n₁.decl? = some id → m₁.decl? ≠ some id)
    (hnames : ∀ name, n₁.declares name → ¬ m₁.declares name)
    (hcorner : Env.Twins ρ e₀.context.decls.length e₀'.context.decls.length (fun _ => True)
      (fun _ => True) e₀ e₀')
    (hlength : e₀'.context.decls.length = e₀.context.decls.length)
    (hfirst : Moves ρ e₀.context.decls.length
      (e₀.context.decls.length + (e₂.context.decls.length - e₁.context.decls.length))
      e₁.context.decls.length)
    (hsecond : Moves ρ e₁.context.decls.length e₀.context.decls.length
      e₂.context.decls.length) :
    ∃ e₁' e₂', Succeeds (declareNode order m) e₀' (m₁.renumberDecl ρ) e₁' ∧
      Succeeds (declareNode (order + globalCount m) n) e₁' (n₁.renumberDecl ρ) e₂' ∧
      Env.Twins ρ e₂.context.decls.length e₂'.context.decls.length (fun _ => True)
        (fun _ => True) e₂ e₂' ∧
      e₂'.context.decls.length = e₂.context.decls.length := by
  have horder : declareNode (order + globalCount n) m = declareNode order m := by
    rcases globalCount_eq_zero hfree with h | h
    · rw [h, Nat.add_zero]
    · exact declareNode_order h
  have horder' : declareNode (order + globalCount m) n = declareNode order n := by
    rcases globalCount_eq_zero hfree with h | h
    · exact declareNode_order h
    · rw [h, Nat.add_zero]
  rw [horder] at hm
  rw [horder']
  obtain ⟨hold, hnew⟩ := declareNode_decl hn
  have htouches := declareNode_touches hn hscopes
  obtain ⟨_, top₁, -, hscopes₁, -⟩ := htouches.scopes
  have hlt₀ : ∀ id < e₁.context.decls.length,
      m₁.decl? = some id ∨ e₁.context.decls.length ≤ id →
        id < e₀.context.decls.length ∧ ¬ n₁.decl? = some id := by
    intro id hlt hid
    have hid := hid.resolve_right (Nat.not_le.mpr hlt)
    refine ⟨Nat.lt_of_not_le fun hle => ?_, fun hbad => hdecls id hbad hid⟩
    exact hdecls id (hnew id hlt hle) hid
  have hlt₀' : ∀ id < e₀.context.decls.length,
      n₁.decl? = some id ∨ e₀.context.decls.length ≤ id →
        ¬ (m₁.renumberDecl ρ).decl? = some (ρ id) := by
    intro id hlt hid hbad
    rw [Node.decl?_renumberDecl] at hbad
    exact hdecls id (hid.resolve_right (Nat.not_le.mpr hlt)) (Option.map_injective ρ.injective hbad)
  have hnames' : ∀ name, m₁.declares name → ¬ n₁.declares name :=
    fun name hm hn => hnames name hn hm
  -- The second part runs first.
  obtain ⟨e₁', hm', tsecond⟩ := declareNode_twins (hlength.symm ▸ hsecond) hm (fun _ h => h)
    (fun _ _ h => .inl h) (Nat.le_refl _) (hcorner.skipLeft htouches hlt₀ hnames')
  obtain ⟨top', hscopes', -⟩ := hcorner.unit_scope hscopes
  have htouches' := declareNode_touches hm' hscopes'
  obtain ⟨_, top₁', -, hscopes₁', -⟩ := htouches'.scopes
  simp only [Node.declares_renumberDecl] at htouches'
  -- The first part runs after it.
  have hlength₁ : e₁'.context.decls.length =
      e₀.context.decls.length + (e₂.context.decls.length - e₁.context.decls.length) := by
    have haligned := tsecond.aligned
    have hle := tsecond.first
    omega
  obtain ⟨e₂', hn', tfirst⟩ := declareNode_twins (hlength₁.symm ▸ hfirst) hn (fun _ h => h)
    (fun _ _ h => .inl h) (Nat.le_refl _) (hcorner.skipRight htouches' hlt₀' hnames)
  have htouches₂ := declareNode_touches hn' hscopes₁'
  simp only [Node.declares_renumberDecl] at htouches₂
  have hdiamond : Diamond ρ n₁ m₁ e₀ e₁ e₂ e₀' e₁' e₂' :=
    ⟨hcorner, hlength, htouches, declareNode_touches hm hscopes₁, htouches', htouches₂, tfirst,
      tsecond, hold, hdecls, hnames⟩
  exact ⟨e₁', e₂', hm', hn', hdiamond.twins, hdiamond.length_eq⟩

/-- Two parts with different declarations are resolved in either order. -/
theorem node_exchange (hn : Succeeds (node n) e₀ n₁ e₁) (hm : Succeeds (node m) e₁ m₁ e₂)
    (hscopes : e₀.scopes = [top]) (hvargs : e₀.vargs = none)
    (hnold : ∀ id, n.decl? = some id → id < e₀.context.decls.length)
    (hmold : ∀ id, m.decl? = some id → id < e₀.context.decls.length)
    (hdecls : ∀ id, n.decl? = some id → m.decl? ≠ some id)
    (hnames : ∀ name, n.declares name → ¬ m.declares name)
    (hcorner : Env.Twins ρ e₀.context.decls.length e₀'.context.decls.length (fun _ => True)
      (fun _ => True) e₀ e₀')
    (hlength : e₀'.context.decls.length = e₀.context.decls.length)
    (hfirst : Moves ρ e₀.context.decls.length
      (e₀.context.decls.length + (e₂.context.decls.length - e₁.context.decls.length))
      e₁.context.decls.length)
    (hsecond : Moves ρ e₁.context.decls.length e₀.context.decls.length
      e₂.context.decls.length) :
    ∃ e₁' e₂', Succeeds (node (m.renumberDecl ρ)) e₀' (m₁.refill (.renumber ρ)) e₁' ∧
      Succeeds (node (n.renumberDecl ρ)) e₁' (n₁.refill (.renumber ρ)) e₂' ∧
      Env.Twins ρ e₂.context.decls.length e₂'.context.decls.length (fun _ => True)
        (fun _ => True) e₂ e₂' ∧
      e₂'.context.decls.length = e₂.context.decls.length := by
  obtain ⟨htouches, hscopes₁⟩ := node_touches hn hscopes hvargs
  have hle := htouches.grows.context.decls.length_le
  obtain ⟨htouches₁, -⟩ := node_touches hm hscopes₁ (htouches.grows.vargs.trans hvargs)
  have hlt₀ : ∀ id < e₁.context.decls.length,
      m.decl? = some id ∨ e₁.context.decls.length ≤ id →
        id < e₀.context.decls.length ∧ ¬ n.decl? = some id := by
    intro id hlt hid
    have hid := hid.resolve_right (Nat.not_le.mpr hlt)
    exact ⟨hmold id hid, fun hbad => hdecls id hbad hid⟩
  have hlt₀' : ∀ id < e₀.context.decls.length,
      n.decl? = some id ∨ e₀.context.decls.length ≤ id →
        ¬ (m.renumberDecl ρ).decl? = some (ρ id) := by
    intro id hlt hid hbad
    rw [Node.decl?_renumberDecl] at hbad
    exact hdecls id (hid.resolve_right (Nat.not_le.mpr hlt)) (Option.map_injective ρ.injective hbad)
  -- The second part runs first.
  obtain ⟨e₁', hm', tsecond⟩ := node_twins (Q := fun _ => True) (hlength.symm ▸ hsecond)
    (fun _ => trivial) hm
    (fun id hid => ⟨Nat.lt_of_lt_of_le (hmold id hid) hle, .inl hid⟩) (Nat.le_refl _)
    (hcorner.skipLeft htouches hlt₀ fun _ _ h => h)
  obtain ⟨top', hscopes', -⟩ := hcorner.unit_scope hscopes
  have hvargs' := hcorner.vargs.trans hvargs
  obtain ⟨htouches', hscopes₁'⟩ := node_touches hm' hscopes' hvargs'
  -- The first part runs after it.
  have hlength₁ : e₁'.context.decls.length =
      e₀.context.decls.length + (e₂.context.decls.length - e₁.context.decls.length) := by
    have haligned := tsecond.aligned
    have hle := tsecond.first
    omega
  obtain ⟨e₂', hn', tfirst⟩ := node_twins (Q := fun _ => True) (hlength₁.symm ▸ hfirst)
    (fun _ => trivial) hn (fun id hid => ⟨hnold id hid, .inl hid⟩) (Nat.le_refl _)
    (hcorner.skipRight htouches' hlt₀' fun _ _ h => h)
  obtain ⟨htouches₂, -⟩ := node_touches hn' hscopes₁' (htouches'.grows.vargs.trans hvargs')
  have hdiamond : Diamond ρ n m e₀ e₁ e₂ e₀' e₁' e₂' :=
    ⟨hcorner, hlength, htouches.mono fun _ h => h.elim, htouches₁.mono fun _ h => h.elim,
      htouches'.mono fun _ h => h.elim, htouches₂.mono fun _ h => h.elim,
      tfirst.mono fun _ _ => trivial, tsecond.mono fun _ _ => trivial,
      fun id hid => Nat.lt_of_lt_of_le (hnold id hid) hle, hdecls, hnames⟩
  exact ⟨e₁', e₂', hm', hn', hdiamond.twins, hdiamond.length_eq⟩

/-! ## Two neighbours among the parts of a unit -/

theorem succeeds_declareNodes_append {order : Nat} {ns ms ns' : List Node} {env env' : Env} :
    Succeeds (declareNodes order (ns ++ ms)) env ns' env' ↔ ∃ ns₁ env₁ ms₁,
      Succeeds (declareNodes order ns) env ns₁ env₁ ∧
        Succeeds (declareNodes (order + Node.globals ns) ms) env₁ ms₁ env' ∧ ns₁ ++ ms₁ = ns' := by
  induction ns generalizing order env ns' with
  | nil =>
    simp only [List.nil_append, succeeds_declareNodes_nil, Node.globals_nil, Nat.add_zero]
    constructor
    · intro h
      exact ⟨[], env, ns', ⟨rfl, rfl⟩, h, rfl⟩
    · rintro ⟨_, _, ms₁, ⟨rfl, rfl⟩, h, rfl⟩
      exact h
  | cons n ns ih =>
    simp only [List.cons_append, succeeds_declareNodes_cons, ih, Node.globals_cons, Nat.add_assoc]
    constructor
    · rintro ⟨n₁, env₁, _, hn, ⟨ns₁, env₂, ms₁, hns, hms, rfl⟩, rfl⟩
      exact ⟨_, env₂, ms₁, ⟨n₁, env₁, ns₁, hn, hns, rfl⟩, hms, rfl⟩
    · rintro ⟨_, env₂, ms₁, ⟨n₁, env₁, ns₁, hn, hns, rfl⟩, hms, rfl⟩
      exact ⟨n₁, env₁, _, hn, ⟨ns₁, env₂, ms₁, hns, hms, rfl⟩, rfl⟩

theorem succeeds_nodes_append {ns ms ns' : List Node} {env env' : Env} :
    Succeeds (nodes (ns ++ ms)) env ns' env' ↔ ∃ ns₁ env₁ ms₁,
      Succeeds (nodes ns) env ns₁ env₁ ∧ Succeeds (nodes ms) env₁ ms₁ env' ∧ ns₁ ++ ms₁ = ns' := by
  induction ns generalizing env ns' with
  | nil =>
    simp only [List.nil_append, succeeds_nodes_nil]
    constructor
    · intro h
      exact ⟨[], env, ns', ⟨rfl, rfl⟩, h, rfl⟩
    · rintro ⟨_, _, ms₁, ⟨rfl, rfl⟩, h, rfl⟩
      exact h
  | cons n ns ih =>
    simp only [List.cons_append, succeeds_nodes_cons, ih]
    constructor
    · rintro ⟨n₁, env₁, _, hn, ⟨ns₁, env₂, ms₁, hns, hms, rfl⟩, rfl⟩
      exact ⟨_, env₂, ms₁, ⟨n₁, env₁, ns₁, hn, hns, rfl⟩, hms, rfl⟩
    · rintro ⟨_, env₂, ms₁, ⟨n₁, env₁, ns₁, hn, hns, rfl⟩, hms, rfl⟩
      exact ⟨n₁, env₁, _, hn, ⟨ns₁, env₂, ms₁, hns, hms, rfl⟩, rfl⟩

variable {front rest front₁ rest₁ : List Node} {env env' e₃ : Env}

/-- The parts of a unit can be declared with two neighbours exchanged. -/
theorem declareNodes_exchange {order : Nat}
    (hfront : Succeeds (declareNodes order front) env front₁ e₀)
    (hn : Succeeds (declareNode (order + Node.globals front) n) e₀ n₁ e₁)
    (hm : Succeeds (declareNode (order + Node.globals front + globalCount n) m) e₁ m₁ e₂)
    (hrest : Succeeds
      (declareNodes (order + Node.globals front + globalCount n + globalCount m) rest) e₂ rest₁ e₃)
    (hfree : ¬ n.Ordered m) (hscopes : env.scopes = [top])
    (hdecls : ∀ id, n₁.decl? = some id → m₁.decl? ≠ some id)
    (hnames : ∀ name, n₁.declares name → ¬ m₁.declares name)
    (ht : Env.Twins ρ env.context.decls.length env'.context.decls.length (fun _ => True)
      (fun _ => True) env env')
    (hlength : env'.context.decls.length = env.context.decls.length)
    (hρ : Exchanges ρ env.context.decls.length e₀.context.decls.length e₁.context.decls.length
      e₂.context.decls.length e₃.context.decls.length) :
    ∃ e₃', Succeeds (declareNodes order (front ++ m :: n :: rest)) env'
        ((front₁ ++ m₁ :: n₁ :: rest₁).map (·.renumberDecl ρ)) e₃' ∧
      Env.Twins ρ e₃.context.decls.length e₃'.context.decls.length (fun _ => True)
        (fun _ => True) e₃ e₃' ∧
      e₃'.context.decls.length = e₃.context.decls.length := by
  obtain ⟨-, top₀, hscopes₀⟩ := declareNodes_length_le hfront hscopes
  obtain ⟨_, top₁, -, hscopes₁, -⟩ := (declareNode_touches hn hscopes₀).scopes
  obtain ⟨_, top₂, -, hscopes₂, -⟩ := (declareNode_touches hm hscopes₁).scopes
  obtain ⟨e₀', hfront', ht₀⟩ := declareNodes_twins (hlength.symm ▸ hρ.before) hfront hscopes
    (Nat.le_refl _) ht
  have hlength₀ : e₀'.context.decls.length = e₀.context.decls.length := by
    have haligned := ht₀.aligned
    omega
  obtain ⟨e₁', e₂', hm', hn', ht₂, hlength₂⟩ := declareNode_exchange hn hm hfree hscopes₀ hdecls
    hnames ht₀.restart hlength₀ hρ.first hρ.second
  obtain ⟨e₃', hrest', ht₃⟩ := declareNodes_twins (hlength₂.symm ▸ hρ.after) hrest hscopes₂
    (Nat.le_refl _) ht₂
  rw [Nat.add_right_comm (order + Node.globals front)] at hrest'
  simp only [List.map_append, List.map_cons]
  refine ⟨e₃', succeeds_declareNodes_append.mpr ⟨_, e₀', _, hfront',
    succeeds_declareNodes_cons.mpr ⟨_, e₁', _, hm',
      succeeds_declareNodes_cons.mpr ⟨_, e₂', _, hn', hrest', rfl⟩, rfl⟩, rfl⟩, ht₃.restart, ?_⟩
  have haligned := ht₃.aligned
  omega

/-- The parts of a unit can be resolved with two neighbours exchanged. -/
theorem nodes_exchange (hfront : Succeeds (nodes front) env front₁ e₀)
    (hn : Succeeds (node n) e₀ n₁ e₁) (hm : Succeeds (node m) e₁ m₁ e₂)
    (hrest : Succeeds (nodes rest) e₂ rest₁ e₃) (hscopes : env.scopes = [top])
    (hvargs : env.vargs = none)
    (hold : ∀ part ∈ front ++ n :: m :: rest, ∀ id, part.decl? = some id →
      id < env.context.decls.length)
    (hdecls : ∀ id, n.decl? = some id → m.decl? ≠ some id)
    (hnames : ∀ name, n.declares name → ¬ m.declares name)
    (ht : Env.Twins ρ env.context.decls.length env'.context.decls.length (fun _ => True)
      (fun _ => True) env env')
    (hlength : env'.context.decls.length = env.context.decls.length)
    (hρ : Exchanges ρ env.context.decls.length e₀.context.decls.length e₁.context.decls.length
      e₂.context.decls.length e₃.context.decls.length) :
    ∃ e₃', Succeeds (nodes ((front ++ m :: n :: rest).map (·.renumberDecl ρ))) env'
        ((front₁ ++ m₁ :: n₁ :: rest₁).map (·.refill (.renumber ρ))) e₃' ∧
      Env.Twins ρ e₃.context.decls.length e₃'.context.decls.length (fun _ => True)
        (fun _ => True) e₃ e₃' ∧
      e₃'.context.decls.length = e₃.context.decls.length := by
  obtain ⟨hfrontOld, hold⟩ := List.forall_mem_append.mp hold
  obtain ⟨hnOld, hold⟩ := List.forall_mem_cons.mp hold
  obtain ⟨hmOld, hrestOld⟩ := List.forall_mem_cons.mp hold
  obtain ⟨hscopes₀, hvargs₀, hle₀⟩ := nodes_frame hfront hscopes hvargs
  obtain ⟨htouches₁, hscopes₁⟩ := node_touches hn hscopes₀ hvargs₀
  have hvargs₁ := htouches₁.grows.vargs.trans hvargs₀
  obtain ⟨htouches₂, hscopes₂⟩ := node_touches hm hscopes₁ hvargs₁
  have hvargs₂ := htouches₂.grows.vargs.trans hvargs₁
  have hle₁ := htouches₁.grows.context.decls.length_le
  have hle₂ := htouches₂.grows.context.decls.length_le
  -- The parts before the pair run as they did, up to the numbers of what they declare.
  obtain ⟨e₀', hfront', ht₀⟩ := nodes_twins (hlength.symm ▸ hρ.before) hfront hscopes hvargs
    hfrontOld (Nat.le_refl _) ht
  have hlength₀ : e₀'.context.decls.length = e₀.context.decls.length := by
    have haligned := ht₀.aligned
    omega
  obtain ⟨e₁', e₂', hm', hn', ht₂, hlength₂⟩ := node_exchange hn hm hscopes₀ hvargs₀
    (fun id hid => Nat.lt_of_lt_of_le (hnOld id hid) hle₀)
    (fun id hid => Nat.lt_of_lt_of_le (hmOld id hid) hle₀) hdecls hnames ht₀.restart hlength₀
    hρ.first hρ.second
  -- So do the parts after it, because the pair has left twins.
  obtain ⟨e₃', hrest', ht₃⟩ := nodes_twins (hlength₂.symm ▸ hρ.after) hrest hscopes₂ hvargs₂
    (fun part hpart id hid => Nat.lt_of_lt_of_le (hrestOld part hpart id hid)
      (Nat.le_trans hle₀ (Nat.le_trans hle₁ hle₂)))
    (Nat.le_refl _) ht₂
  simp only [List.map_append, List.map_cons]
  refine ⟨e₃', succeeds_nodes_append.mpr ⟨_, e₀', _, hfront',
    succeeds_nodes_cons.mpr ⟨_, e₁', _, hm',
      succeeds_nodes_cons.mpr ⟨_, e₂', _, hn', hrest', rfl⟩, rfl⟩, rfl⟩, ht₃.restart, ?_⟩
  have haligned := ht₃.aligned
  omega

end Resolver

end KilnLang
