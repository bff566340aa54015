import PinsBackend.Proofs.Typing.Assignment

/-! How the types of declarations come about.

A written type, an alias, a parameter and a variable take their type from one other node. So the
checker goes down a single chain of nodes until it meets one whose type is known or an alias that it
has passed, and types the nodes of the chain on its way back. -/
namespace PinsBackend.Assignment

open Typing Lexical

variable {id : NodeId} {resolving : List NodeId}

variable {a : Arena} {B : NodeTable Binding}

/-! ## Chains -/

/-- The type of the first node is made in this way from that of the second one. -/
inductive Makes (a : Arena) (B : NodeTable Binding) : NodeId → NodeId → (Ty → Ty) → Prop
  | alias {d t x} (hd : a.decl? d = some (.alias x t)) : Makes a B d t (.alias x)
  | param {d t x} (hd : a.decl? d = some (.param x t)) : Makes a B d t fun τ => τ
  | var {d t x init} (hd : a.decl? d = some (.var x t init)) : Makes a B d t fun τ => τ
  | array {t element n} (ht : a.type? t = some (.array n element)) (pos : 0 < n) :
    Makes a B t element (.array n)
  | named {t d u x y} (ht : a.type? t = some (.named x)) (hb : B.get? t = some (.decl d))
    (hd : a.decl? d = some (.alias y u)) : Makes a B t d fun τ => τ

/-- The aliases that are being resolved below this node, unless it is one that is being resolved. -/
def below? (a : Arena) (id : NodeId) (resolving : List NodeId) : Option (List NodeId) :=
  match a.decl? id with
  | some (.alias _ _) => if id ∈ resolving then none else some (id :: resolving)
  | _ => some resolving

/-- How the type of a node comes about, with the state that the checker leaves. -/
inductive Resolves (a : Arena) (B : NodeTable Binding) :
    List NodeId → NodeId → Typing → Ty × Typing → Prop
  | known {resolving id σ τ} (other : a.expr? id = none) (old : σ.types.get? id = some τ) :
    Resolves a B resolving id σ (τ, σ)
  | cycle {resolving d t x σ} (hd : a.decl? d = some (.alias x t)) (new : σ.types.get? d = none)
    (met : d ∈ resolving) :
    Resolves a B resolving d σ
      (.error, { σ with errors := σ.errors.push (.cyclicType x (a.position d)) })
  | atom {resolving t atom σ} (ht : a.type? t = some (.atom atom)) (new : σ.types.get? t = none) :
    Resolves a B resolving t σ (atomType atom, { σ with types := σ.types.insert t (atomType atom) })
  | unbound {resolving t x σ} (ht : a.type? t = some (.named x)) (new : σ.types.get? t = none)
    (free : ∀ d, B.get? t ≠ some (.decl d)) :
    Resolves a B resolving t σ (.error, { σ with types := σ.types.insert t .error })
  | empty {resolving t element n σ r} (ht : a.type? t = some (.array n element))
    (new : σ.types.get? t = none) (neg : n ≤ 0) (inner : Resolves a B resolving element σ r) :
    Resolves a B resolving t σ (.error, ⟨r.2.types.insert t .error,
      r.2.errors.push (.invalidArrayLength n (a.position t))⟩)
  | made {resolving resolving' id c f σ r} (makes : Makes a B id c f) (new : σ.types.get? id = none)
    (below : below? a id resolving = some resolving') (inner : Resolves a B resolving' c σ r) :
    Resolves a B resolving id σ (f r.1, { r.2 with types := r.2.types.insert id (f r.1) })

/-- The types of several nodes, one after the other. -/
inductive ResolvesAll (a : Arena) (B : NodeTable Binding) :
    List NodeId → Typing → List Ty × Typing → Prop
  | nil {σ} : ResolvesAll a B [] σ ([], σ)
  | cons {id ids σ r rs} (first : Resolves a B [] id σ r) (rest : ResolvesAll a B ids r.2 rs) :
    ResolvesAll a B (id :: ids) σ (r.1 :: rs.1, rs.2)

/-- The type of a declaration, with the state that the checker leaves. -/
inductive DeclResolves (a : Arena) (B : NodeTable Binding) (d : NodeId) (σ : Typing) :
    Ty × Typing → Prop
  | chain {r} (h : Resolves a B [] d σ r) : DeclResolves a B d σ r
  | function {f params result body rs r} (hd : a.decl? d = some (.function f params result body))
    (new : σ.types.get? d = none) (first : ResolvesAll a B params σ rs)
    (last : Resolves a B [] result rs.2 r) :
    DeclResolves a B d σ
      (.function rs.1 r.1, { r.2 with types := r.2.types.insert d (.function rs.1 r.1) })

/-- The names in written types are bound to aliases of the program, if at all. -/
def Suited (a : Arena) (B : NodeTable Binding) : Prop :=
  ∀ {t x d}, a.Reached t → a.type? t = some (.named x) → B.get? t = some (.decl d) →
    a.Reached d ∧ ∃ y u, a.decl? d = some (.alias y u)

theorem suited_of_bound (bound : Bound a B) : Suited a B := by
  intro t x d reached ht hb
  obtain ⟨d', y, u, hb', hd, reached'⟩ := bound.type reached ht
  rw [hb] at hb'
  cases hb'
  exact ⟨reached', y, u, hd⟩

theorem Makes.reached {c : NodeId} {f : Ty → Ty} (suited : Suited a B) (h : Makes a B id c f)
    (reached : a.Reached id) : a.Reached c := by
  cases h with
  | «alias» hd | param hd | var hd =>
    obtain ⟨position, hnode⟩ := Arena.node?_of_decl? hd
    exact reached.child ⟨_, hnode, by simp⟩
  | array ht =>
    obtain ⟨position, hnode⟩ := Arena.node?_of_type? ht
    exact reached.child ⟨_, hnode, by simp⟩
  | named ht hb => exact (suited reached ht hb).1

theorem below?_subset {j : NodeId} {resolving' : List NodeId}
    (h : below? a id resolving = some resolving') (hj : j ∈ resolving') :
    j = id ∨ j ∈ resolving := by
  unfold below? at h
  split at h
  · split at h
    · cases h
    · cases h
      exact List.mem_cons.1 hj
  · cases h
    exact .inr hj

theorem below?_type {t : NodeId} {type : Arena.TypeExpr} (ht : a.type? t = some type)
    (resolving : List NodeId) : below? a t resolving = some resolving := by
  obtain ⟨position, hnode⟩ := Arena.node?_of_type? ht
  simp [below?, Arena.decl?, hnode]

/-! ## What the checker does -/

theorem Resolves.remember {x : CheckM Ty} {σ : Typing} (other : a.expr? id = none)
    (h : σ.types.get? id = none →
      Resolves a B resolving id σ
      ((x σ).1, { (x σ).2 with types := (x σ).2.types.insert id (x σ).1 })) :
    Resolves a B resolving id σ (remember id x σ) := by
  rw [remember_run]
  cases old : σ.types.get? id with
  | some τ => exact .known other old
  | none => exact h old

theorem param_of_sited {n : Nat} {p : NodeId} (sited : Sited a n .param p) :
    ∃ x t, a.decl? p = some (.param x t) := by
  obtain ⟨⟨position, kind⟩, hnode, accepts⟩ := sited.accepts
  cases kind with
  | expr | type => cases accepts
  | decl d =>
    cases d with
    | param x t => exact ⟨x, t, by simp [Arena.decl?, hnode]⟩
    | «alias» | function | var => cases accepts

section

variable {t d : NodeId} {resolving : List NodeId} {fuel : Nat}

variable (tree : a.IsTreeShaped) (suited : Suited a B)

include tree suited

theorem typeExpr_resolves {n m : Nat} (sited : Sited a n .type t) (le : n ≤ m)
    {decl : NodeId → CheckM Ty} {σ : Typing}
    (hdecl : ∀ {d x u}, a.decl? d = some (.alias x u) → a.Reached d →
      Resolves a B resolving d σ (decl d σ)) :
    Resolves a B resolving t σ (typeExpr (context a B) decl (a.typeTree m t) σ) := by
  induction n generalizing m t with
  | zero => exact (not_sited_zero tree sited).elim
  | succ n ih =>
    obtain ⟨m, rfl⟩ : ∃ k, m = k + 1 := ⟨m - 1, by omega⟩
    obtain ⟨⟨position, kind⟩, hnode, accepts⟩ := sited.accepts
    cases kind with
    | decl | expr => cases accepts
    | type type =>
      have ht : a.type? t = some type := by simp [Arena.type?, hnode]
      have other : a.expr? t = none := by simp [Arena.expr?, hnode]
      rw [Arena.typeTree, ht]
      cases type with
      | atom atom => exact .remember other (.atom ht)
      | array n element =>
        have inner := ih (sited.child tree hnode (p := (.type, element)) (by simp))
          (Nat.le_of_succ_le_succ le)
        refine .remember other fun new => ?_
        simp only [bind_run]
        by_cases neg : n ≤ 0
        · rw [if_pos neg]
          exact .empty ht new neg inner
        · rw [if_neg neg]
          exact .made (.array ht (by omega)) new (below?_type ht _) inner
      | named x =>
        refine .remember other fun new => ?_
        simp only [Arena.site, context]
        cases hb : B.get? t with
        | none => exact .unbound ht new (by simp [hb])
        | some b =>
          cases b with
          | builtin => exact .unbound ht new (by simp [hb])
          | decl d =>
            obtain ⟨reached, y, u, hd⟩ := suited sited.deep.reached ht hb
            exact .made (.named ht hb hd) new (below?_type ht _) (hdecl hd reached)

theorem alias_resolves {x : String} (hd : a.decl? d = some (.alias x t)) (reached : a.Reached d)
    (enough : a.signatures.size - resolving.length < fuel) (nodup : resolving.Nodup)
    (signed : ∀ r ∈ resolving, (a.signatures.get? r).isSome = true) (σ : Typing) :
    Resolves a B resolving d σ (declType (context a B) fuel resolving d σ) := by
  induction fuel generalizing resolving d x t with
  | zero => cases enough
  | succ fuel ih =>
    obtain ⟨position, hnode⟩ := Arena.node?_of_decl? hd
    have signature : (context a B).signatures.get? d =
        some (.alias (a.site d) x (a.typeTree a.nodes.size t)) := by
      rw [context, Arena.get?_signatures, Arena.signature?, hd]
    rw [declType_succ, signature]
    cases old : σ.types.get? d with
    | some τ => exact .known (by simp [Arena.expr?, hnode]) old
    | none =>
      dsimp only
      by_cases met : d ∈ resolving
      · rw [if_pos met]
        exact .cycle hd old met
      · rw [if_neg met]
        have nodup' : (d :: resolving).Nodup := List.nodup_cons.2 ⟨met, nodup⟩
        have signed' : ∀ r ∈ d :: resolving, (a.signatures.get? r).isSome = true := by
          intro r hr
          rcases List.mem_cons.1 hr with rfl | hr
          · exact Option.isSome_iff_exists.2 ⟨_, signature⟩
          · exact signed r hr
        have room := length_le_size nodup' signed'
        rw [List.length_cons] at room
        obtain ⟨n, sited⟩ : ∃ n, Sited a n .type t :=
          Sited.of_reached tree reached hnode (p := (.type, t)) (by simp)
        have inner := typeExpr_resolves tree suited sited sited.deep.le fun hd' reached' =>
          ih hd' reached' (by simp only [List.length_cons]; omega) nodup' signed'
        exact .made (.alias hd) old (by simp [below?, hd, met]) inner

theorem written_resolves (reached : a.Reached d) {node : Arena.Node} (hnode : a.node? d = some node)
    (place : (.type, t) ∈ node.kind.children) (enough : a.signatures.size < fuel) (σ : Typing) :
    Resolves a B [] t σ
      (typeExpr (context a B) (declType (context a B) fuel []) (a.typeTree a.nodes.size t) σ) := by
  obtain ⟨n, sited⟩ : ∃ n, Sited a n .type t := Sited.of_reached tree reached hnode place
  exact typeExpr_resolves tree suited sited sited.deep.le fun hd reached =>
    alias_resolves tree suited hd reached (by simpa using enough) .nil (by simp) σ

theorem value_resolves {decl : Arena.Decl} (hd : a.decl? d = some decl) (reached : a.Reached d)
    (value : nameKind decl = .var) (enough : a.signatures.size < fuel) (σ : Typing) :
    Resolves a B [] d σ (declType (context a B) (fuel + 1) [] d σ) := by
  obtain ⟨position, hnode⟩ := Arena.node?_of_decl? hd
  rw [declType_succ]
  cases old : σ.types.get? d with
  | some τ => exact .known (by simp [Arena.expr?, hnode]) old
  | none =>
    have signature : (context a B).signatures.get? d = a.signature? d := Arena.get?_signatures d
    simp only [Arena.signature?, hd] at signature
    rw [signature]
    cases decl with
    | «alias» | function => cases value
    | param x t =>
      have inner := written_resolves tree suited reached hnode (t := t) (by simp) enough σ
      exact .made (.param hd) old (by simp [below?, hd]) inner
    | var x t init =>
      have inner := written_resolves tree suited reached hnode (t := t) (by simp) enough σ
      exact .made (.var hd) old (by simp [below?, hd]) inner

omit tree suited in
theorem ResolvesAll.mapM {f : NodeId → CheckM Ty} {ids : List NodeId}
    (h : ∀ id ∈ ids, ∀ σ, Resolves a B [] id σ (f id σ)) (σ : Typing) :
    ResolvesAll a B ids σ (ids.mapM f σ) := by
  induction ids generalizing σ with
  | nil => exact .nil
  | cons id ids ih =>
    rw [List.mapM_cons]
    exact .cons (h id (by simp) σ) (ih (fun j hj => h j (by simp [hj])) _)

/-- The chain behind a declaration of the program is never cut off. -/
theorem declType_resolves {decl : Arena.Decl} (hd : a.decl? d = some decl) (reached : a.Reached d)
    (σ : Typing) : DeclResolves a B d σ ((context a B).declType d σ) := by
  have signature : (context a B).signatures.get? d = a.signature? d := Arena.get?_signatures d
  simp only [Arena.signature?, hd] at signature
  obtain ⟨s, hs⟩ : ∃ s, (context a B).signatures.get? d = some s := by
    cases decl with
    | «alias» | function | param | var => exact ⟨_, signature⟩
  obtain ⟨fuel, chain, enough⟩ := chain_enough hs
  rw [Context.declType, chain]
  cases decl with
  | «alias» x t =>
    refine .chain (alias_resolves tree suited hd reached ?_ .nil (by simp) σ)
    exact Nat.lt_of_le_of_lt (Nat.sub_le _ _) (Nat.lt_of_lt_of_le enough (Nat.le_add_right _ _))
  | param | var =>
    exact .chain (value_resolves tree suited hd reached rfl (Nat.lt_succ_of_lt enough) σ)
  | function f params result body =>
    obtain ⟨position, hnode⟩ := Arena.node?_of_decl? hd
    rw [declType_succ]
    cases old : σ.types.get? d with
    | some τ => exact .chain (.known (by simp [Arena.expr?, hnode]) old)
    | none =>
      simp only [signature]
      refine .function hd old (.mapM (fun p hp => ?_) σ)
        (written_resolves tree suited reached hnode (by simp) (Nat.lt_succ_of_lt enough) _)
      obtain ⟨n, sited⟩ : ∃ n, Sited a n .param p :=
        Sited.of_reached tree reached hnode (p := (.param, p)) (by simp [hp])
      obtain ⟨x, t, hp⟩ := param_of_sited sited
      exact value_resolves tree suited hp sited.deep.reached rfl enough

end

end PinsBackend.Assignment
