/-
This file proves that the methods a router offers for a path are the methods it answers: which leaf
a path reaches, through mounts and the second pass for catch-alls, does not depend on the method.
-/

import ZeroServer.Router.Resolve

namespace ZeroServer.Routing

open Http1

variable {Handler : Type}

/-- A path reaches no leaf, whatever the method, or one leaf with the same captures. -/
def Selects (answers : Method → Resolution Handler) : Prop :=
  (∀ method, answers method = .notFound) ∨
    ∃ leaf params, ∀ method, answers method = dispatch leaf method params

theorem shiftResolution_dispatch (by_ : Nat) (leaf : Leaf Handler) (method : Method)
    (params : Params) : Router.shiftResolution by_ (dispatch leaf method params) =
      dispatch leaf method (Router.shiftParams params by_) := by
  unfold dispatch
  cases leaf.handler method with
  | some descriptor => rfl
  | none =>
    dsimp only
    cases (if method = .head then leaf.handler .get else none) with
    | some descriptor => rfl
    | none =>
      dsimp only
      split <;> rfl

variable {answers : Method → Resolution Handler}

theorem Selects.shift (selects : Selects answers) (by_ : Nat) :
    Selects fun method => Router.shiftResolution by_ (answers method) := by
  rcases selects with none_ | ⟨leaf, params, same⟩
  · refine .inl fun method => ?_
    dsimp only
    rw [none_ method]
    rfl
  · refine .inr ⟨leaf, Router.shiftParams params by_, fun method => ?_⟩
    dsimp only
    rw [same method, shiftResolution_dispatch]

/-- The search through a trie selects the leaf it ends at, or what comes after it. -/
theorem selects_find {found : Option (Leaf Handler) × Params} (selects : Selects answers) :
    Selects fun method => match found with
      | (some leaf, params) => dispatch leaf method params
      | (none, _) => answers method := by
  obtain ⟨leaf, params⟩ := found
  cases leaf with
  | some leaf => exact .inr ⟨leaf, params, fun _ => rfl⟩
  | none => exact selects

theorem selects_none : Selects fun _ : Method => (.notFound : Resolution Handler) :=
  .inl fun _ => rfl

mutual

theorem resolveMethod_selects : ∀ (router : Router Handler) (path : Bytes),
    Selects fun method => Router.resolveMethod method router path
  | ⟨root, mounts, trailingSlash⟩, given => by
    have mounted := resolveMounts_selects mounts (trailingSlash.trim given)
    unfold Router.resolveMethod
    dsimp only
    split
    · split
      · exact selects_none
      · refine selects_find ?_
        rcases mounted with none_ | ⟨answers, some_, selects⟩
        · simp only [none_]
          exact selects_find selects_none
        · simp only [some_]
          exact selects
    · exact selects_none

theorem resolveMounts_selects : ∀ (mounts : List (Bytes × Router Handler)) (path : Bytes),
    (∀ method, Router.resolveMounts method mounts path = none) ∨
      ∃ answers, (∀ method, Router.resolveMounts method mounts path = some (answers method)) ∧
        Selects answers
  | [], _ => .inl fun _ => rfl
  | (under, router) :: rest, path => by
    unfold Router.resolveMounts
    cases Router.mountedPath under path with
    | some child => exact .inr ⟨_, fun _ => rfl, (resolveMethod_selects router child).shift _⟩
    | none => exact resolveMounts_selects rest path

end

/-! ### What a leaf offers -/

/-- The path is answered: by a handler or with the methods it has. -/
def Answers : Resolution Handler → Prop
  | .matched _ _ _ | .options _ => True
  | _ => False

/-- What a leaf answers to a method it does not have a handler for is the methods it has. -/
theorem dispatch_cases (leaf : Leaf Handler) (method : Method) (params : Params) :
    (∃ descriptor head, dispatch leaf method params = .matched descriptor params head ∧
      leaf.allow method = true) ∨
    (method = .options ∧ dispatch leaf method params = .options leaf.allow ∧
      leaf.allow method = true) ∨
    (dispatch leaf method params = .methodNotAllowed leaf.allow ∧ leaf.allow method = false) := by
  unfold dispatch
  cases own : leaf.handler method with
  | some descriptor =>
    refine .inl ⟨descriptor, false, rfl, ?_⟩
    unfold Leaf.allow
    rw [own]
    rfl
  | none =>
    dsimp only
    by_cases isHead : method = .head
    · subst isHead
      rw [if_pos rfl]
      cases fromGet : leaf.handler .get with
      | some descriptor =>
        refine .inl ⟨descriptor, true, rfl, ?_⟩
        unfold Leaf.allow
        rw [own, fromGet]
        rfl
      | none =>
        refine .inr (.inr ⟨rfl, ?_⟩)
        unfold Leaf.allow
        rw [own, fromGet]
        rfl
    · rw [if_neg isHead]
      dsimp only
      have offered : leaf.allow method = decide (method = .options) := by
        unfold Leaf.allow
        rw [own, decide_eq_false isHead]
        rfl
      by_cases isOptions : method = .options
      · rw [if_pos isOptions]
        exact .inr (.inl ⟨isOptions, rfl, offered.trans (decide_eq_true isOptions)⟩)
      · rw [if_neg isOptions]
        exact .inr (.inr ⟨rfl, offered.trans (decide_eq_false isOptions)⟩)

theorem allow_iff_answers (leaf : Leaf Handler) (method : Method) (params : Params) :
    leaf.allow method = true ↔ Answers (dispatch leaf method params) := by
  rcases dispatch_cases leaf method params with ⟨_, _, same, offered⟩ | ⟨-, same, offered⟩ |
      ⟨same, offered⟩
  · rw [same, offered]
    exact iff_of_true rfl trivial
  · rw [same, offered]
    exact iff_of_true rfl trivial
  · rw [same, offered]
    exact iff_of_false Bool.false_ne_true id

theorem dispatch_ne_notFound (leaf : Leaf Handler) (method : Method) (params : Params) :
    dispatch leaf method params ≠ .notFound := by
  rcases dispatch_cases leaf method params with ⟨_, _, same, -⟩ | ⟨-, same, -⟩ | ⟨same, -⟩ <;>
    rw [same] <;> exact nofun

theorem dispatch_offers {leaf : Leaf Handler} {method : Method} {params : Params} {allow : Allow}
    (offers : dispatch leaf method params = .methodNotAllowed allow ∨
      dispatch leaf method params = .options allow) : allow = leaf.allow := by
  rcases dispatch_cases leaf method params with ⟨_, _, same, -⟩ | ⟨-, same, -⟩ | ⟨same, -⟩
  · rw [same] at offers
    rcases offers with wrong | wrong <;> cases wrong
  · rw [same] at offers
    rcases offers with wrong | same'
    · cases wrong
    · cases same'
      rfl
  · rw [same] at offers
    rcases offers with same' | wrong
    · cases same'
      rfl
    · cases wrong

/-- The methods offered for a path are exactly those that are answered, and a path that is not found
for one method is not found for any. -/
theorem offered_iff_answered (router : Router Handler) (path token : Bytes) {method : Method}
    (known : Method.parse token = some method) :
    (∀ allow, router.resolve token path = .methodNotAllowed allow ∨
        router.resolve token path = .options allow →
      ∀ otherToken other, Method.parse otherToken = some other →
        (allow other = true ↔ Answers (router.resolve otherToken path))) ∧
    ∀ otherToken other, Method.parse otherToken = some other →
      (router.resolve token path = .notFound ↔ router.resolve otherToken path = .notFound) := by
  have resolved : ∀ {token method}, Method.parse token = some method →
      router.resolve token path = Router.resolveMethod method router path := by
    intro token method known
    unfold Router.resolve
    rw [known]
  rw [resolved known]
  rcases resolveMethod_selects router path with none_ | ⟨leaf, params, same⟩
  · dsimp only at none_
    rw [none_ method]
    refine ⟨fun allow offers => ?_, fun otherToken other otherKnown => ?_⟩
    · rcases offers with wrong | wrong <;> cases wrong
    · rw [resolved otherKnown, none_ other]
  · dsimp only at same
    rw [same method]
    refine ⟨fun allow offers otherToken other otherKnown => ?_,
      fun otherToken other otherKnown => ?_⟩
    · rw [dispatch_offers offers, resolved otherKnown, same other]
      exact allow_iff_answers leaf other params
    · rw [resolved otherKnown, same other]
      exact iff_of_false (dispatch_ne_notFound _ _ _) (dispatch_ne_notFound _ _ _)

/-- A router of one page: what it offers to a POST is what it answers. -/
def page : Router Nat := ((({} : Router Nat).route .get (ascii "/a") 1).toOption).getD {}

theorem offered_iff_answered_page :
    (∀ allow, page.resolve (ascii "POST") (ascii "/a") = .methodNotAllowed allow ∨
        page.resolve (ascii "POST") (ascii "/a") = .options allow →
      ∀ otherToken other, Method.parse otherToken = some other →
        (allow other = true ↔ Answers (page.resolve otherToken (ascii "/a")))) ∧
    ∀ otherToken other, Method.parse otherToken = some other →
      (page.resolve (ascii "POST") (ascii "/a") = .notFound ↔
        page.resolve otherToken (ascii "/a") = .notFound) :=
  offered_iff_answered page (ascii "/a") (ascii "POST")
    (show Method.parse (ascii "POST") = some .post from rfl)

end ZeroServer.Routing
