import DuckInfer.Proofs.Signature.Completion
import DuckInfer.Proofs.Store.AncestorSearch
import DuckInfer.Proofs.Ty.PlaceholderNames
import DuckInfer.Store.Methods

/-!
Methods as a receiver sees them. The generics that a frame binds are replaced in the overloads of
its methods, without regard to the generics that an overload declares itself. Main statement: the
placeholders of an own generic are kept if the frame binds no generic of that name, and are lost if
it does.
-/

namespace DuckInfer

/-! ### Placeholders of one name -/

namespace Ty

/-- `u` is `t` with types put in the place of placeholders: those of the name stay where they are,
and no others of that name come in. -/
def KeepsPlaceholder (name : String) (t u : Ty) : Prop :=
  u = t ∨ ∃ f : Member → Ty, u = t.rebuild f ∧ ∀ m, f m = .single m ∨
    m.isPlaceholder = true ∧ m.placeholderName? ≠ some name ∧ name ∉ (f m).placeholderNames

end Ty

namespace Bindings

/-- The bound types bring in no placeholder of a name. -/
def Avoids (b : Bindings) (name : String) : Prop :=
  ∀ entry ∈ b.entries, name ∉ entry.2.placeholderNames

end Bindings

section

variable {b : Bindings} {name : String}

theorem Ty.KeepsPlaceholder.eq_of_placeholder {m : Member} {u : Ty}
    (keeps : (Ty.single m).KeepsPlaceholder name u) (placeholder : m.placeholderName? = some name) :
    u = Ty.single m := by
  rcases keeps with same | ⟨f, rfl, each⟩
  · exact same
  · have kept : f m = Ty.single m :=
      (each m).resolve_right fun ⟨_, other, _⟩ => other placeholder
    have leaf : m.isLeaf = true := by
      simp [Member.isLeaf, Member.isPlaceholder_of_placeholderName? placeholder]
    have members : (Ty.single m).members.map (Member.rebuild f) =
        (Ty.single m).members.map Ty.single := by
      simp [Ty.single, Ty.members, Member.rebuild_of_isLeaf leaf, kept]
    rw [Ty.rebuild_eq, members]
    exact Ty.unionAll_single (List.nodup_singleton m.tag)

/-- Placeholders of a name that is not bound are kept. -/
theorem Ty.keepsPlaceholder_substitute (free : b.find? name = none) (avoids : b.Avoids name)
    (t : Ty) : t.KeepsPlaceholder name (t.substitute b) := by
  unfold Ty.substitute
  split
  · refine Or.inr ⟨b.replacement, rfl, fun m => ?_⟩
    rcases b.replacement_cases m with ⟨generic, u, placeholder, bound, replaced⟩ | ⟨-, kept⟩
    · refine Or.inr ⟨Member.isPlaceholder_of_placeholderName? placeholder, ?_, ?_⟩
      · rw [placeholder]
        rintro ⟨⟩
        exact absurd (free.symm.trans bound) (by simp)
      · rw [replaced]
        exact avoids _ (Bindings.mem_of_find? bound)
    · exact Or.inl kept
  · exact Or.inl rfl

/-- In a leaf with every placeholder named, names stand in the leaf itself only. -/
theorem Member.placeholderName?_of_isLeaf {m : Member} (leaf : m.isLeaf = true)
    (named : m.isNamelessPlaceholder = false) (listed : name ∈ m.placeholderNames) :
    m.placeholderName? = some name := by
  rcases Member.mem_placeholderNames.mp listed with placeholder | ⟨nameless, t, param, listed⟩
  · exact placeholder
  · have generic : t.isGeneric = true := by
      by_contra ground
      exact Ty.not_mem_placeholderNames_of_ground (by simpa using ground) listed
    have placeholder : m.isPlaceholder = true := by
      by_contra proper
      simp only [Bool.not_eq_true] at proper
      simp only [Member.isLeaf, proper, Bool.false_or, Bool.and_eq_true, List.isEmpty_iff] at leaf
      simp [Member.params, leaf] at param
    have subs : m.subs = [] := by
      simpa [Member.placeholderName?, placeholder] using nameless
    have key : t ∈ m.keys := by
      simpa [Member.params, subs] using param
    simp only [Member.isNamelessPlaceholder, placeholder, subs, List.isEmpty_nil, Bool.and_true,
      Bool.true_and, List.any_eq_false] at named
    exact absurd generic (named t key)

/-- A name that stands in a placeholder after a replacement was left free. -/
theorem Ty.find?_of_mem_placeholderNames_rebuild (avoids : b.Avoids name) {t : Ty}
    (proper : t.hasNamelessPlaceholder = false)
    (listed : name ∈ (t.rebuild b.replacement).placeholderNames) : b.find? name = none := by
  induction t using Ty.induction with
  | step t ih =>
    rw [Ty.rebuild_eq] at listed
    obtain ⟨made, member, listed⟩ := Ty.mem_placeholderNames.mp listed
    obtain ⟨u, rebuilt, member⟩ := Ty.exists_of_mem_unionAll (by simp [t.members_ne_nil]) member
    obtain ⟨m, old, rfl⟩ := List.mem_map.mp rebuilt
    obtain ⟨named, params⟩ := Ty.anyMember_eq_false.mp proper m old
    have inside := Ty.mem_placeholderNames.mpr ⟨made, member, listed⟩
    cases leaf : m.isLeaf with
    | true =>
      rw [Member.rebuild_of_isLeaf leaf] at inside
      rcases b.replacement_cases m with ⟨generic, v, -, bound, replaced⟩ | ⟨free, kept⟩
      · exact absurd (replaced ▸ inside) (avoids _ (Bindings.mem_of_find? bound))
      · rw [kept, Ty.mem_placeholderNames_single] at inside
        rwa [Member.placeholderName?_of_isLeaf leaf named inside] at free
    | false =>
      have ordinary : ∀ keys subs, (m.replaceParams keys subs).isPlaceholder = false :=
        fun _ _ => (Bool.or_eq_false_iff.mp leaf).1
      rw [Member.rebuild_of_not_isLeaf leaf,
        Bindings.replacement_of_not_isPlaceholder (ordinary _ _), Ty.mem_placeholderNames_single,
        Member.mem_placeholderNames,
        Member.placeholderName?_of_not_isPlaceholder (ordinary _ _)] at inside
      obtain ⟨-, v, param, listed⟩ := inside.resolve_left (by simp)
      obtain ⟨u, original, rfl⟩ := Member.exists_of_mem_params_map param
      exact ih m old u original (params u original) listed

/-- Placeholders of a bound name are lost. -/
theorem Ty.not_mem_placeholderNames_substitute (bound : b.contains name = true)
    (avoids : b.Avoids name) {t : Ty} (proper : t.hasNamelessPlaceholder = false) :
    name ∉ (t.substitute b).placeholderNames := by
  intro listed
  unfold Ty.substitute at listed
  split at listed
  · have free := Ty.find?_of_mem_placeholderNames_rebuild avoids proper listed
    simp [Bindings.contains, free] at bound
  · rename_i idle
    have filled := Bindings.isEmpty_of_contains bound
    exact Ty.not_mem_placeholderNames_of_ground (by simpa [filled] using idle) listed

end

/-! ### Overloads -/

namespace Signature

variable {b : Bindings} {name : String}

/-- The placeholders of a name are kept in all types of the signature, those of the block
included. -/
def KeepsPlaceholder (name : String) (s s' : Signature) : Prop :=
  ∃ f : Ty → Ty, s' = s.mapTys f ∧ s.Every fun t => t.KeepsPlaceholder name (f t)

/-- An overload as it is seen through bindings, with what becomes of its own generics: their
placeholders are kept if the name is free, and lost if it is bound. -/
structure SeenThrough (b : Bindings) (s s' : Signature) : Prop where
  replaced : s' = s.substitute b
  kept : ∀ generic ∈ s.generics, b.Avoids generic → b.contains generic = false →
    s.KeepsPlaceholder generic s'
  lost : ∀ generic ∈ s.generics, b.Avoids generic → b.contains generic = true →
    s.Every (fun t => t.hasNamelessPlaceholder = false) →
    s'.Every fun t => generic ∉ t.placeholderNames

theorem KeepsPlaceholder.returns {s s' : Signature} (keeps : s.KeepsPlaceholder name s') :
    s.returns.KeepsPlaceholder name s'.returns := by
  obtain ⟨f, rfl, every⟩ := keeps
  obtain ⟨generics, params, returns, block⟩ := s
  cases block with
  | none => exact every.2.1
  | some block => exact every.2.1

theorem every_of_forall {p : Ty → Prop} (all : ∀ t, p t) (s : Signature) : s.Every p := by
  induction s using induction with
  | plain generics params returns => exact ⟨fun param _ => all param.ty, all returns, trivial⟩
  | withBlock generics params returns block ih =>
    exact ⟨fun param _ => all param.ty, all returns, ih⟩

theorem every_mapTys {p : Ty → Prop} {f : Ty → Ty} {s : Signature}
    (every : s.Every fun t => p (f t)) : (s.mapTys f).Every p := by
  have each : ∀ params : List Parameter, (∀ param ∈ params, p (f param.ty)) →
      ∀ param ∈ params.map (Parameter.mapTy f), p param.ty := by
    intro params every param member
    obtain ⟨old, listed, rfl⟩ := List.mem_map.mp member
    exact every old listed
  induction s using induction with
  | plain generics params returns => exact ⟨each params every.1, every.2.1, trivial⟩
  | withBlock generics params returns block ih =>
    exact ⟨each params every.1, every.2.1, ih every.2.2⟩

theorem keepsPlaceholder_substitute (free : b.find? name = none) (avoids : b.Avoids name)
    (s : Signature) : s.KeepsPlaceholder name (s.substitute b) :=
  ⟨Ty.substitute b, rfl, every_of_forall (Ty.keepsPlaceholder_substitute free avoids) s⟩

theorem not_mem_placeholderNames_substitute (bound : b.contains name = true)
    (avoids : b.Avoids name) {s : Signature}
    (proper : s.Every fun t => t.hasNamelessPlaceholder = false) :
    (s.substitute b).Every fun t => name ∉ t.placeholderNames :=
  every_mapTys (proper.imp fun _ => Ty.not_mem_placeholderNames_substitute bound avoids)

theorem seenThrough_substitute (b : Bindings) (s : Signature) :
    s.SeenThrough b (s.substitute b) where
  replaced := rfl
  kept _ _ avoids free :=
    keepsPlaceholder_substitute (by simpa [Bindings.contains] using free) avoids s
  lost _ _ avoids bound proper := not_mem_placeholderNames_substitute bound avoids proper

theorem mapTys_id (s : Signature) : s.mapTys id = s := by
  have params : ∀ params : List Parameter, params.map (Parameter.mapTy id) = params :=
    fun params => List.map_id params
  induction s using induction with
  | plain generics own returns => simp [mapTys, params]
  | withBlock generics own returns block ih => simp [mapTys, params, ih]

theorem substitute_of_isEmpty (empty : b.isEmpty = true) (s : Signature) : s.substitute b = s := by
  have same : Ty.substitute b = id := by
    funext t
    simp [Ty.substitute, empty]
  rw [substitute, same, mapTys_id]

end Signature

/-! ### Methods of a frame -/

namespace Pin

/-- Only methods have overloads. -/
theorem signatures_withOverloads {pin : Pin} (some : pin.signatures ≠ [])
    (signatures : List Signature) : (pin.withOverloads signatures).signatures = signatures := by
  unfold withOverloads
  cases kind : pin.kind with
  | method scope visibility old => rfl
  | _ => simp [Pin.signatures, kind] at some

@[simp] theorem returnTy_proxied (pin : Pin) (t : Ty) : (pin.proxied t).returnTy = t :=
  rfl

@[simp] theorem isMethod_proxied (pin : Pin) (t : Ty) : (pin.proxied t).isMethod = pin.isMethod :=
  rfl

@[simp] theorem gates_proxied (pin : Pin) (t : Ty) : (pin.proxied t).gates = pin.gates := by
  obtain ⟨name, closure, location, comments, kind, proxyTy⟩ := pin
  cases kind <;> cases closure <;> simp [proxied, gates]

@[simp] theorem isMethod_withOverloads (pin : Pin) (signatures : List Signature) :
    (pin.withOverloads signatures).isMethod = pin.isMethod := by
  obtain ⟨name, closure, location, comments, kind, proxyTy⟩ := pin
  cases kind <;> rfl

@[simp] theorem gates_withOverloads (pin : Pin) (signatures : List Signature) :
    (pin.withOverloads signatures).gates = pin.gates := by
  obtain ⟨name, closure, location, comments, kind, proxyTy⟩ := pin
  cases kind <;> cases closure <;> simp [withOverloads, gates]

@[simp] theorem path_proxied (pin : Pin) (t : Ty) : (pin.proxied t).path = pin.path := by
  obtain ⟨name, closure, location, comments, kind, proxyTy⟩ := pin
  cases closure <;> simp [proxied, path]

@[simp] theorem path_withOverloads (pin : Pin) (signatures : List Signature) :
    (pin.withOverloads signatures).path = pin.path := by
  obtain ⟨name, closure, location, comments, kind, proxyTy⟩ := pin
  cases kind with
  | method scope visibility old => cases scope <;> cases closure <;> simp [withOverloads, path]
  | _ => rfl

theorem isMethod_of_methodLevel? {pin : Pin} {scope : Scope}
    (level : pin.methodLevel? = some scope) : pin.isMethod = true := by
  unfold methodLevel? at level
  unfold isMethod
  split at level <;> simp_all

theorem assignment?_of_isMethod {pin : Pin} (method : pin.isMethod = true) :
    pin.assignment? = none := by
  unfold isMethod at method
  unfold assignment? data?
  split at method <;> simp_all

theorem isLocal_of_isMethod {pin : Pin} (method : pin.isMethod = true) : pin.isLocal = false := by
  unfold isMethod at method
  unfold isLocal
  split at method <;> simp_all

end Pin

namespace Store

theorem signatures_bindGenerics (b : Bindings) (pin : Pin) :
    (bindGenerics b pin).signatures = pin.signatures.map (·.substitute b) := by
  unfold bindGenerics
  split
  · rename_i empty
    exact ((List.map_congr_left fun s _ => Signature.substitute_of_isEmpty empty s).trans
      (List.map_id _)).symm
  · split
    · rename_i none
      rw [List.isEmpty_iff.mp none]
      split
      · exact List.isEmpty_iff.mp none
      · exact List.isEmpty_iff.mp none
    · rename_i some
      exact Pin.signatures_withOverloads (by simpa using some) _

theorem mem_frameMethods {store : Store} {name : String} {frame : Frame} {pin : Pin} :
    pin ∈ store.frameMethods name frame ↔
      ∃ stored ∈ store.methodsOf frame.path frame.scope,
        stored.name = name ∧ pin = store.seenFrom frame.bindings stored := by
  rw [frameMethods, List.mem_map]
  simp only [List.mem_filter, beq_iff_eq, and_assoc, eq_comm (a := pin)]

/-- Seen from a frame, a method changes in its overloads and in its type only. -/
theorem seenFrom_eq {α : Type} {f : Pin → α}
    (overloads : ∀ pin signatures, f (Pin.withOverloads pin signatures) = f pin)
    (proxied : ∀ pin t, f (Pin.proxied pin t) = f pin) (store : Store) (b : Bindings) (pin : Pin) :
    f (store.seenFrom b pin) = f pin := by
  have overridden : f (store.withOverrides pin) = f pin := by
    unfold withOverrides
    split
    · rfl
    · dsimp only
      split
      · rfl
      · exact overloads pin _
  refine Eq.trans ?_ overridden
  unfold seenFrom bindGenerics
  split
  · rfl
  · split
    · split
      · exact proxied _ _
      · rfl
    · exact overloads _ _

theorem isMethod_of_mem_frameMethods {store : Store} {name : String} {frame : Frame} {pin : Pin}
    (seen : pin ∈ store.frameMethods name frame) : pin.isMethod = true := by
  obtain ⟨stored, declared, -, rfl⟩ := mem_frameMethods.mp seen
  rw [seenFrom_eq Pin.isMethod_withOverloads Pin.isMethod_proxied]
  exact Pin.isMethod_of_methodLevel? (beq_iff_eq.mp (List.mem_filter.mp declared).2)

/-- A method that a receiver has is a stored one as one of the receiver's frames sees it, with the
generics that the frame binds replaced in every overload. -/
theorem exists_frame_of_mem_methodsNamed {store : Store} {receiver : Member} {name : String}
    {pin : Pin} (found : pin ∈ Id.run (store.methodsNamed receiver name)) :
    ∃ frame ∈ Id.run (store.receiverAncestors receiver),
      ∃ stored ∈ store.methodsOf frame.path frame.scope, stored.name = name ∧
        pin = store.seenFrom frame.bindings stored := by
  obtain ⟨frame, visited, seen⟩ := List.mem_flatMap.mp found
  exact ⟨frame, visited, mem_frameMethods.mp seen⟩

/-- Each overload of a method that a receiver has is a stored one, with the overriding documentation
applied, as it is seen through the bindings of a frame. So the placeholders of an own generic are
kept if the frame binds no generic of that name, and lost if it does. -/
theorem methodsNamed_seenThrough {store : Store} {receiver : Member} {name : String} {pin : Pin}
    (found : pin ∈ Id.run (store.methodsNamed receiver name)) :
    ∃ frame ∈ Id.run (store.receiverAncestors receiver),
      ∃ stored ∈ store.methodsOf frame.path frame.scope, stored.name = name ∧
        List.Forall₂ (Signature.SeenThrough frame.bindings)
          (store.withOverrides stored).signatures pin.signatures := by
  obtain ⟨frame, visited, stored, listed, named, rfl⟩ := exists_frame_of_mem_methodsNamed found
  refine ⟨frame, visited, stored, listed, named, ?_⟩
  rw [seenFrom, signatures_bindGenerics, List.forall₂_map_right_iff, List.forall₂_same]
  exact fun s _ => Signature.seenThrough_substitute frame.bindings s

/-! ### Running a search -/

/-- Works off a stack in at most so many steps. -/
def workOffWithin (store : Store) : Nat → List (String × Scope) → List SearchStep →
    Option (List Frame)
  | _, _, [] => some []
  | 0, _, _ => none
  | fuel + 1, pending, .emit frame :: stack =>
    (store.workOffWithin fuel pending stack).map (frame :: ·)
  | fuel + 1, pending, .expand frame :: stack =>
    if pending.contains frame.key then
      store.workOffWithin fuel (eraseKeyFrom pending frame.key)
        (Id.run (store.expansion frame) ++ stack)
    else store.workOffWithin fuel pending stack

theorem workOff_of_within {store : Store} {fuel : Nat} {pending : List (String × Scope)}
    {stack : List SearchStep} {frames : List Frame}
    (done : store.workOffWithin fuel pending stack = some frames) :
    Id.run (store.workOff pending stack) = frames := by
  fun_induction store.workOffWithin fuel pending stack generalizing frames with
  | case1 fuel pending =>
    rw [workOff]
    exact Option.some.inj done
  | case2 => simp at done
  | case3 pending fuel frame stack ih =>
    obtain ⟨later, rest, rfl⟩ := Option.map_eq_some_iff.mp done
    rw [workOff_emit, ih rest]
  | case4 pending fuel frame stack new ih =>
    rw [workOff_expand (List.contains_iff_mem.mp new), ih done]
  | case5 pending fuel frame stack known ih =>
    rw [workOff_skip (mt List.contains_iff_mem.mpr known), ih done]

/-- The frames of a receiver, found in at most so many steps. -/
def framesWithin (store : Store) (fuel : Nat) (receiver : Member) : Option (List Frame) :=
  store.workOffWithin fuel (store.reachableKeys receiver.space)
    ((store.entries (store.receiverFrame receiver)).map .expand)

theorem receiverAncestors_of_within {store : Store} {fuel : Nat} {receiver : Member}
    {frames : List Frame} (done : store.framesWithin fuel receiver = some frames) :
    Id.run (store.receiverAncestors receiver) = frames :=
  (run_search store _).trans (workOff_of_within done)

/-- What is made of the frames of a namespace, which are found in at most so many steps. -/
theorem ancestors_of_within {α : Type} {store : Store} (fuel : Nat) {path : String}
    {scope : Scope} {f : List Frame → α} {a : α}
    (done : (store.workOffWithin fuel (store.reachableKeys path)
      ((store.entries (.make path scope)).map .expand)).map f = some a) :
    f (Id.run (store.ancestors path scope)) = a := by
  obtain ⟨frames, found, rfl⟩ := Option.map_eq_some_iff.mp done
  exact congrArg f ((run_search store _).trans (workOff_of_within found))

section Boxes

/-- A class `Box` of generic `T` with the method `map`, of an own generic:
`[own] (generic<T> x) -> generic<own>`. -/
def boxes (own : String) : Store :=
  let box : Pin := .make "Box" (some .root) (.space false ["T"])
  let map : Signature :=
    ⟨[own], [⟨"x", .required, .single (.generic "T")⟩], .single (.generic own), none⟩
  .ofGroups [("box.rb",
    [.root, box, .make "map" (some box) (.method .instanceLevel .everyone [map])])]

/-- The type `Box<String>`. -/
def boxOfString : Member :=
  .list "Box" [.absolute "String"]

/-- An own generic `U` is left in place. -/
theorem methodsNamed_seenThrough_boxes :
    ∃ pin ∈ Id.run ((boxes "U").methodsNamed boxOfString "map"),
      pin.signatures.map Signature.text = ["[U] (String x) -> generic<U>"] ∧
      ∃ frame ∈ Id.run ((boxes "U").receiverAncestors boxOfString),
        ∃ stored ∈ (boxes "U").methodsOf frame.path frame.scope, stored.name = "map" ∧
          List.Forall₂ (Signature.SeenThrough frame.bindings)
            ((boxes "U").withOverrides stored).signatures pin.signatures := by
  have shown : ((boxes "U").framesWithin 9 boxOfString).any (fun frames =>
      (frames.flatMap ((boxes "U").frameMethods "map")).any fun pin =>
        pin.signatures.map Signature.text == ["[U] (String x) -> generic<U>"]) = true := by
    decide +kernel
  obtain ⟨frames, done, written⟩ := (Option.any_eq_true _ _).mp shown
  obtain ⟨pin, seen, text⟩ := List.any_eq_true.mp written
  have found : pin ∈ Id.run ((boxes "U").methodsNamed boxOfString "map") := by
    rw [← receiverAncestors_of_within done] at seen
    exact seen
  exact ⟨pin, found, beq_iff_eq.mp text, methodsNamed_seenThrough found⟩

/-- The overload returns a placeholder for an own generic, and what is seen of it does not. -/
def losesReturn (generic : String) (s s' : Signature) : Bool :=
  s.generics.contains generic && s.returns.rest.isEmpty &&
    s.returns.first.placeholderName? == some generic && !s'.returns.isGeneric

theorem not_keepsPlaceholder_of_losesReturn {generic : String} {s s' : Signature}
    (loses : losesReturn generic s s' = true) :
    generic ∈ s.generics ∧ ¬ s.KeepsPlaceholder generic s' := by
  simp only [losesReturn, Bool.and_eq_true, List.contains_iff_mem, List.isEmpty_iff, beq_iff_eq,
    Bool.not_eq_true'] at loses
  obtain ⟨⟨⟨own, alone⟩, placeholder⟩, ground⟩ := loses
  refine ⟨own, fun keeps => ?_⟩
  have returns := keeps.returns
  rw [Ty.eq_single alone] at returns
  have same := returns.eq_of_placeholder placeholder
  have generic : (Ty.single s.returns.first).isGeneric = true := by
    by_contra open'
    have member : s.returns.first ∈ (Ty.single s.returns.first).members := List.mem_cons_self
    have proper := (Ty.isGeneric_eq_false.mp (by simpa using open') _ member).1
    rw [Member.isPlaceholder_of_placeholderName? placeholder] at proper
    exact absurd proper (by simp)
  rw [same, generic] at ground
  exact absurd ground (by simp)

/-- An own generic `T` is taken for that of the class, so that `String` stands in its place. -/
theorem not_keepsPlaceholder_boxes :
    ¬ ∀ (groups : List (String × List Pin)) (receiver : Member) (name : String) (frame : Frame)
      (stored : Pin), frame ∈ Id.run ((ofGroups groups).receiverAncestors receiver) →
      stored ∈ (ofGroups groups).methodsOf frame.path frame.scope → stored.name = name →
      List.Forall₂ (fun s s' => ∀ generic ∈ s.generics, s.KeepsPlaceholder generic s')
        ((ofGroups groups).withOverrides stored).signatures
        ((ofGroups groups).seenFrom frame.bindings stored).signatures := by
  intro claimed
  have lost : ((boxes "T").framesWithin 9 boxOfString).any (fun frames =>
      frames.any fun frame => ((boxes "T").methodsOf frame.path frame.scope).any fun stored =>
        stored.name == "map" && (((boxes "T").withOverrides stored).signatures.zip
          ((boxes "T").seenFrom frame.bindings stored).signatures).any fun (s, s') =>
            losesReturn "T" s s') = true := by
    decide +kernel
  obtain ⟨frames, done, lost⟩ := (Option.any_eq_true _ _).mp lost
  obtain ⟨frame, visited, lost⟩ := List.any_eq_true.mp lost
  obtain ⟨stored, listed, lost⟩ := List.any_eq_true.mp lost
  obtain ⟨named, lost⟩ := Bool.and_eq_true_iff.mp lost
  obtain ⟨⟨s, s'⟩, paired, lost⟩ := List.any_eq_true.mp lost
  obtain ⟨own, loses⟩ := not_keepsPlaceholder_of_losesReturn lost
  rw [← receiverAncestors_of_within done] at visited
  have keeps := claimed _ boxOfString "map" frame stored visited listed (beq_iff_eq.mp named)
  exact loses ((List.forall₂_iff_zip.mp keeps).2 paired "T" own)

end Boxes

end Store

end DuckInfer
