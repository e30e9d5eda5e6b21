import Drt.Util.ModelStore

/-!
# Resolving twice

A class gives its own tags away with a primitive type, and those who asked merge theirs into
them. So a resolution leaves the model as it is if the merged tags are there already.
-/

open List Outcome

namespace Drt.Model

variable (m : Model)

/-- A call of a generator. -/
def resolveCall (fuel : Nat) (st : ModelStore) (call : Call) : Outcome Unit Resolved :=
  match m.target call with
  | none => .raise ()
  | some target => m.resolve fuel st target

/-- The type and the tags that a call returns. -/
def answer (result : Outcome Unit Resolved) : Outcome Unit (ModelRef × Drtag) :=
  result >>= fun r => .ok (r.type, r.tags)

/-- The calls of a generator, one after the other, the last one first. -/
inductive Run : List Call → ModelStore → Prop
  | nil : Run [] m.fresh
  | returned {calls : List Call} {st : ModelStore} {call : Call} {fuel : Nat} {r : Resolved}
      (h : Run calls st) (hcall : m.resolveCall fuel st call = .ok r) :
      Run (call :: calls) r.store
  | died {calls : List Call} {st : ModelStore} {call : Call} {fuel : Nat}
      (h : Run calls st) (hcall : m.resolveCall fuel st call = .raise ()) :
      Run (call :: calls) st

/-- Earlier calls do not show in the next one: the tags are as they were loaded, and stay so, and
the call returns what it returns first. -/
structure PureCall (st : ModelStore) (call : Call) : Prop where
  before : st.tags = m.fresh.tags
  same : ∀ fuel, answer (m.resolveCall fuel st call) = answer (m.resolveCall fuel m.fresh call)
  after : ∀ fuel r, m.resolveCall fuel st call = .ok r → r.store.tags = m.fresh.tags

/-- The names that the expansion of an association looks up. -/
inductive ExpansionAsks : Nat → Nat → String → Prop
  | ref {c i : Nat} {fd : ModelField} (hfd : (m.classes c).field_list[i]? = some fd) :
      ExpansionAsks c i (formatTyperef (m.classes c).package fd.ref)
  | primary {c i c' j : Nat} {fd : ModelField} {name : String}
      (hfd : (m.classes c).field_list[i]? = some fd)
      (hclass : m.getSubModel m.fresh c fd.ref = some (.cls c')) (hprimary : j ∈ m.getPrimary c')
      (hstype : m.stypeAt c' j = some .assoc ∨ m.stypeAt c' j = some .compos)
      (hasks : ExpansionAsks c' j name) : ExpansionAsks c i name

/-- The names that a resolution looks up. -/
inductive Asks : ModelTarget → String → Prop
  | sub {c : Nat} {subname : Option String} {subtype : String} {drtag : Drtag} {ask : Ask}
      {name : String} (hask : m.request m.fresh c subname subtype = some ask)
      (hname : m.askedName c ask = some name) : Asks (.sub c subname subtype drtag) name
  | subNext {c : Nat} {subname : Option String} {subtype : String} {drtag : Drtag} {ask : Ask}
      {next : ModelTarget} {name : String} (hask : m.request m.fresh c subname subtype = some ask)
      (hnext : m.follow m.fresh c ask = some next) (hasks : Asks next name) :
      Asks (.sub c subname subtype drtag) name
  | field {c i : Nat} {fd : ModelField} {name : String}
      (hfd : (m.classes c).field_list[i]? = some fd) (hstype : fd.stype = .field)
      (hasks : Asks (.sub c (some fd.name) fd.type fd.drtag) name) : Asks (.attr c i) name
  | assoc {c i : Nat} {fd : ModelField} {name : String}
      (hfd : (m.classes c).field_list[i]? = some fd) (hstype : fd.stype ≠ .field)
      (hasks : m.ExpansionAsks c i name) : Asks (.attr c i) name
  | assocNext {c i c' j fuel : Nat} {fd : ModelField} {name : String}
      (hfd : (m.classes c).field_list[i]? = some fd) (hstype : fd.stype ≠ .field)
      (hexpand : m.expandAssocAttrs m.fresh fuel c i = .ok [(c', j)])
      (hasks : Asks (.attr c' j) name) : Asks (.attr c i) name
  | base {c : Nat} {base : String} (hkind : (m.classes c).kind = .typedef base)
      (hprimitive : checkPrimitive base = false) :
      Asks (.model (.cls c)) (formatTyperef (m.classes c).package base)
  | baseNext {c : Nat} {base name : String} {ref : ModelRef}
      (hkind : (m.classes c).kind = .typedef base) (hprimitive : checkPrimitive base = false)
      (hnext : m.getSubModel m.fresh c base = some ref) (hasks : Asks (.model ref) name) :
      Asks (.model (.cls c)) name

/-- A resolution ends at a primitive type of the class, and merges these tags into those of the
class. -/
inductive Reaches : ModelTarget → Nat → List Drtag → Prop
  | primitive {c : Nat} {subname : Option String} {subtype type : String} {drtag : Drtag}
      (hask : m.request m.fresh c subname subtype = some (.primitive type)) :
      Reaches (.sub c subname subtype drtag) c [drtag]
  | next {c c' : Nat} {subname : Option String} {subtype : String} {drtag : Drtag} {ask : Ask}
      {next : ModelTarget} {merged : List Drtag}
      (hask : m.request m.fresh c subname subtype = some ask)
      (hnext : m.follow m.fresh c ask = some next) (h : Reaches next c' merged) :
      Reaches (.sub c subname subtype drtag) c' (merged ++ [drtag])
  | field {c i c' : Nat} {fd : ModelField} {merged : List Drtag}
      (hfd : (m.classes c).field_list[i]? = some fd) (hstype : fd.stype = .field)
      (h : Reaches (.sub c (some fd.name) fd.type fd.drtag) c' merged) :
      Reaches (.attr c i) c' merged
  | assoc {c i c' j k fuel : Nat} {fd : ModelField} {merged : List Drtag}
      (hfd : (m.classes c).field_list[i]? = some fd) (hstype : fd.stype ≠ .field)
      (hexpand : m.expandAssocAttrs m.fresh fuel c i = .ok [(c', j)])
      (h : Reaches (.attr c' j) k merged) : Reaches (.attr c i) k (merged ++ [fd.drtag])

/-- The primitive base of a typedef, by the name under which it is entered. -/
def Entered (name : String) : Prop :=
  ∃ c base, (m.classes c).kind = .typedef base ∧ checkPrimitive base = true ∧ name = "::" ++ base

/-- The condition on a call: it looks up no name that a typedef may enter, and the tags that it
merges into those of a class are there already. -/
structure Harmless (target : ModelTarget) : Prop where
  asks : ∀ name, m.Asks target name → ¬ m.Entered name
  merges : ∀ c merged, m.Reaches target c merged →
    merged.foldl Drtag.mergeReplacing (m.classes c).drtag = (m.classes c).drtag

/-- The tags are those of the loaded model, and only typedefs have entered types. -/
structure Similar (st : ModelStore) : Prop where
  tags : st.tags = m.fresh.tags
  entered : ∀ type ∈ st.primitives, m.Entered ("::" ++ type)

/-- The same type, tags and tagger, and types entered by typedefs only. -/
structure SameResolved (r r' : Resolved) : Prop where
  type : r.type = r'.type
  tagger : r.tagger = r'.tagger
  tags : r.store.tags = r'.store.tags
  entered : ∀ type ∈ r.store.primitives, m.Entered ("::" ++ type)

/-- The runs end in the same way. -/
def SameOutcome (x y : Outcome Unit Resolved) : Prop :=
  match x, y with
  | .ok r, .ok r' => m.SameResolved r r'
  | .raise _, .raise _ => True
  | .fault, .fault => True
  | .outOfFuel, .outOfFuel => True
  | _, _ => False

variable {m} {st : ModelStore} {target : ModelTarget}

theorem similar_fresh : m.Similar m.fresh := ⟨rfl, fun _ h => nomatch h⟩

variable {c fuel : Nat} {x y : Outcome Unit Resolved} {subname : Option String} {drtag : Drtag}
  {r : Resolved}

/-- A name is looked up as in the loaded model, unless a typedef may have entered it. -/
theorem getSubModel_eq (h : m.Similar st) {name : String}
    (hname : ¬ m.Entered (formatTyperef (m.classes c).package name)) :
    m.getSubModel st c name = m.getSubModel m.fresh c name := by
  have hnone : (st.primitives.find? fun type =>
      "::" ++ type = formatTyperef (m.classes c).package name) = none := by
    refine List.find?_eq_none.mpr fun type htype heq => hname ?_
    exact of_decide_eq_true heq ▸ h.entered type htype
  simp only [getSubModel, hnone, fresh, List.find?_nil]

theorem request_eq (h : m.Similar st) (c : Nat) (subname : Option String) (subtype : String) :
    m.request st c subname subtype = m.request m.fresh c subname subtype := by
  simp only [request, refClass, h.tags]

theorem follow_eq (h : m.Similar st) {ask : Ask}
    (hname : ∀ name, m.askedName c ask = some name → ¬ m.Entered name) :
    m.follow st c ask = m.follow m.fresh c ask := by
  cases ask with
  | primitive type => rfl
  | attr cls field | model name => simp only [follow, getSubModel_eq h (hname _ rfl)]

theorem expandAssocAttrs_eq (h : m.Similar st) (fuel : Nat) {i : Nat}
    (hname : ∀ name, m.ExpansionAsks c i name → ¬ m.Entered name) :
    m.expandAssocAttrs st fuel c i = m.expandAssocAttrs m.fresh fuel c i := by
  induction fuel generalizing c i with
  | zero => rfl
  | succ fuel ih =>
    unfold expandAssocAttrs
    cases hfd : (m.classes c).field_list[i]? with
    | none => rfl
    | some fd =>
      simp only [getSubModel_eq h (hname _ (.ref hfd))]
      cases hclass : m.getSubModel m.fresh c fd.ref with
      | none => rfl
      | some ref =>
        cases ref with
        | primitive type => rfl
        | cls c' =>
          have hih : ∀ j ∈ m.getPrimary c',
              (m.stypeAt c' j = some .assoc ∨ m.stypeAt c' j = some .compos) →
              m.expandAssocAttrs st fuel c' j = m.expandAssocAttrs m.fresh fuel c' j := by
            intro j hj hstype
            exact ih fun name hasks => hname name (.primary hfd hclass hj hstype hasks)
          simp only []
          congr 1
          refine foldr_ext _ _ _ fun j hj rest => ?_
          cases hstype : m.stypeAt c' j with
          | none => rfl
          | some stype =>
            cases stype with
            | field => rfl
            | child => rfl
            | assoc => simp only [hih j hj (.inl hstype)]
            | compos => simp only [hih j hj (.inr hstype)]

/-- Two resolutions that go the same way merge the same tags. -/
theorem SameOutcome.merge (h : m.SameOutcome x y) {drtag : Resolved → Drtag}
    (hdrtag : ∀ r r', r.store.tags = r'.store.tags → drtag r = drtag r') :
    m.SameOutcome (x >>= fun r => .ok (r.merge (drtag r)))
      (y >>= fun r => .ok (r.merge (drtag r))) := by
  cases x with
  | ok r =>
    cases y with
    | ok r' =>
      obtain ⟨htype, htagger, htags, hentered⟩ := h
      have heq := hdrtag r r' htags
      show m.SameResolved (r.merge (drtag r)) (r'.merge (drtag r'))
      unfold Resolved.merge
      rw [htagger, heq]
      cases r'.tagger with
      | shared c => exact ⟨htype, rfl, by simp only [htags], hentered⟩
      | own tags => exact ⟨htype, rfl, htags, hentered⟩
    | raise _ | fault | outOfFuel => exact h.elim
  | raise _ | fault | outOfFuel =>
    cases y with
    | ok _ => exact h.elim
    | raise _ | fault | outOfFuel => exact h

theorem SameOutcome.answer_eq (h : m.SameOutcome x y) : answer x = answer y := by
  cases x with
  | ok r =>
    cases y with
    | ok r' =>
      obtain ⟨htype, htagger, htags, _⟩ := h
      simp only [answer, ok_bind, Resolved.tags, htype, htagger, htags]
    | raise _ | fault | outOfFuel => exact h.elim
  | raise _ | fault | outOfFuel =>
    cases y with
    | ok _ => exact h.elim
    | raise _ | fault | outOfFuel => first | rfl | exact h.elim

/-- A request that leads on is resolved there, and the tags are merged. -/
theorem resolve_sub_next {subtype : String} {ask : Ask} {next : ModelTarget}
    (hask : m.request st c subname subtype = some ask) (hnext : m.follow st c ask = some next) :
    m.resolve (fuel + 1) st (.sub c subname subtype drtag) =
      (m.resolve fuel st next >>= fun r => .ok (r.merge drtag)) := by
  cases ask with
  | primitive type => cases hnext
  | attr cls field | model name => simp only [resolve, hask, hnext]

theorem resolve_sub_none {subtype : String} {ask : Ask}
    (hask : m.request st c subname subtype = some ask) (hne : ∀ type, ask ≠ .primitive type)
    (hnext : m.follow st c ask = none) :
    m.resolve (fuel + 1) st (.sub c subname subtype drtag) = .raise () := by
  cases ask with
  | primitive type => exact absurd rfl (hne type)
  | attr cls field | model name => simp only [resolve, hask, hnext]

/-- Tags are merged into those that a resolution returns. -/
theorem merge_cases (r : Resolved) (drtag : Drtag) :
    (∃ c, r.tagger = .shared c ∧ (r.merge drtag).tagger = .shared c ∧
      (r.merge drtag).store.tags =
        Function.update r.store.tags c ((r.store.tags c).mergeReplacing drtag)) ∨
    (∃ tags tags', r.tagger = .own tags ∧ (r.merge drtag).tagger = .own tags' ∧
      (r.merge drtag).store = r.store) := by
  unfold Resolved.merge
  cases htagger : r.tagger with
  | shared c => exact .inl ⟨c, rfl, rfl, rfl⟩
  | own tags => exact .inr ⟨tags, _, rfl, rfl, rfl⟩

/-- Typedefs and other tags apart, a resolution goes as in the loaded model. -/
theorem resolve_same (h : m.Similar st) (hname : ∀ name, m.Asks target name → ¬ m.Entered name) :
    m.SameOutcome (m.resolve fuel st target) (m.resolve fuel m.fresh target) := by
  induction fuel generalizing target with
  | zero => trivial
  | succ fuel ih =>
    cases target with
    | sub c subname subtype drtag =>
      unfold resolve
      rw [request_eq h]
      cases hask : m.request m.fresh c subname subtype with
      | none => trivial
      | some ask =>
        have hfollow := follow_eq h fun name hasked => hname name (.sub hask hasked)
        cases ask with
        | primitive type =>
          exact ⟨rfl, rfl, by simp only [Resolved.merge, h.tags], h.entered⟩
        | attr cls field | model name =>
          simp only [hfollow]
          cases hnext : m.follow m.fresh c _ with
          | none => trivial
          | some next =>
            have hsame := ih fun name hasks => hname name (.subNext hask hnext hasks)
            exact hsame.merge fun _ _ _ => rfl
    | attr c i =>
      unfold resolve
      cases hfd : (m.classes c).field_list[i]? with
      | none => trivial
      | some fd =>
        by_cases hstype : fd.stype = .field
        · simp only [hstype, if_true]
          exact ih fun name hasks => hname name (.field hfd hstype hasks)
        · simp only [hstype, if_false]
          rw [expandAssocAttrs_eq h fuel fun name hasks => hname name (.assoc hfd hstype hasks)]
          cases hexpand : m.expandAssocAttrs m.fresh fuel c i with
          | raise _ | fault | outOfFuel => trivial
          | ok refs =>
            rcases refs with _ | ⟨⟨c', j⟩, _ | _⟩
            · trivial
            · have hsame := ih fun name hasks => hname name (.assocNext hfd hstype hexpand hasks)
              exact hsame.merge fun _ _ _ => rfl
            · trivial
    | model ref =>
      cases ref with
      | primitive type => exact ⟨rfl, rfl, h.tags, h.entered⟩
      | cls c =>
        unfold resolve
        cases hkind : (m.classes c).kind with
        | cls _ _ | enum => exact ⟨rfl, by simp only [h.tags], h.tags, h.entered⟩
        | typedef base =>
          by_cases hprimitive : checkPrimitive base = true
          · simp only [hprimitive, if_true]
            refine ⟨rfl, by simp only [h.tags], h.tags, ?_⟩
            intro type htype
            rcases mem_cons.mp htype with rfl | htype
            · exact ⟨c, type, hkind, hprimitive, rfl⟩
            · exact h.entered type htype
          · have hnot : checkPrimitive base = false := Bool.not_eq_true _ ▸ hprimitive
            simp only [hnot, getSubModel_eq h (hname _ (.base hkind hnot))]
            cases hnext : m.getSubModel m.fresh c base with
            | none => trivial
            | some ref =>
              have hsame := ih fun name hasks => hname name (.baseNext hkind hnot hnext hasks)
              exact hsame.merge fun _ _ htags => congrFun htags c

variable (m) in
/-- What a resolution has done to the tags of the loaded model. -/
def Merged (target : ModelTarget) (r : Resolved) : Prop :=
  (∃ c merged, r.tagger = .shared c ∧ m.Reaches target c merged ∧
    r.store.tags = Function.update m.fresh.tags c
      (merged.foldl Drtag.mergeReplacing (m.fresh.tags c))) ∨
  (∃ tags, r.tagger = .own tags ∧ r.store.tags = m.fresh.tags)

/-- One level more: its tags are merged too. -/
theorem Merged.step {target' : ModelTarget} (h : m.Merged target r)
    (hreaches : ∀ c merged, m.Reaches target c merged →
      m.Reaches target' c (merged ++ [drtag])) : m.Merged target' (r.merge drtag) := by
  rcases h with ⟨c, merged, htagger, hreach, htags⟩ | ⟨tags, htagger, htags⟩
  · rcases merge_cases r drtag with ⟨c', hc', htagger', htags'⟩ | ⟨_, _, hown, _⟩
    · obtain rfl : c' = c := Tagger.shared.inj (hc'.symm.trans htagger)
      refine .inl ⟨c', merged ++ [drtag], htagger', hreaches c' merged hreach, ?_⟩
      rw [htags', htags, Function.update_self, Function.update_idem, foldl_append]
      rfl
    · rw [htagger] at hown
      cases hown
  · rcases merge_cases r drtag with ⟨_, hshared, _⟩ | ⟨_, tags', _, htagger', hstore⟩
    · rw [htagger] at hshared
      cases hshared
    · exact .inr ⟨tags', htagger', hstore ▸ htags⟩

/-- In the loaded model a resolution merges tags into those of a class only if it reaches a
primitive type there. -/
theorem resolve_fresh (hrun : m.resolve fuel m.fresh target = .ok r) : m.Merged target r := by
  induction fuel generalizing target r with
  | zero => cases hrun
  | succ fuel ih =>
    cases target with
    | sub c subname subtype drtag =>
      cases hask : m.request m.fresh c subname subtype with
      | none =>
        simp only [resolve, hask] at hrun
        cases hrun
      | some ask =>
        cases hnext : m.follow m.fresh c ask with
        | some next =>
          rw [resolve_sub_next hask hnext] at hrun
          obtain ⟨r', hrun', hr⟩ := bind_eq_ok.mp hrun
          cases hr
          exact (ih hrun').step fun c' merged hreach => .next hask hnext hreach
        | none =>
          by_cases hprimitive : ∃ type, ask = .primitive type
          · obtain ⟨type, rfl⟩ := hprimitive
            simp only [resolve, hask] at hrun
            cases hrun
            exact .inl ⟨c, [drtag], rfl, .primitive hask, rfl⟩
          · rw [resolve_sub_none hask (fun type heq => hprimitive ⟨type, heq⟩) hnext] at hrun
            cases hrun
    | attr c i =>
      unfold resolve at hrun
      cases hfd : (m.classes c).field_list[i]? with
      | none =>
        simp only [hfd] at hrun
        cases hrun
      | some fd =>
        by_cases hstype : fd.stype = .field
        · simp only [hfd, hstype, if_true] at hrun
          rcases ih hrun with ⟨c', merged, htagger, hreach, htags⟩ | hown
          · exact .inl ⟨c', merged, htagger, .field hfd hstype hreach, htags⟩
          · exact .inr hown
        · simp only [hfd, hstype, if_false] at hrun
          obtain ⟨refs, hexpand, hrun⟩ := bind_eq_ok.mp hrun
          rcases refs with _ | ⟨⟨c', j⟩, _ | _⟩
          · cases hrun
          · obtain ⟨r', hrun', hr⟩ := bind_eq_ok.mp hrun
            cases hr
            exact (ih hrun').step fun k merged hreach => .assoc hfd hstype hexpand hreach
          · cases hrun
    | model ref =>
      cases ref with
      | primitive type =>
        cases hrun
        exact .inr ⟨_, rfl, rfl⟩
      | cls c =>
        unfold resolve at hrun
        cases hkind : (m.classes c).kind with
        | cls _ _ | enum =>
          simp only [hkind] at hrun
          cases hrun
          exact .inr ⟨_, rfl, rfl⟩
        | typedef base =>
          by_cases hprimitive : checkPrimitive base = true
          · simp only [hkind, hprimitive, if_true] at hrun
            cases hrun
            exact .inr ⟨_, rfl, rfl⟩
          · simp only [hkind, hprimitive] at hrun
            cases hnext : m.getSubModel m.fresh c base with
            | none =>
              simp only [hnext] at hrun
              cases hrun
            | some ref =>
              simp only [hnext] at hrun
              obtain ⟨r', hrun', hr⟩ := bind_eq_ok.mp hrun
              cases hr
              exact (ih hrun').step fun _ _ hreach => nomatch hreach

theorem tags_of_harmless (h : m.Harmless target) (hrun : m.resolve fuel m.fresh target = .ok r) :
    r.store.tags = m.fresh.tags := by
  rcases resolve_fresh hrun with ⟨c, merged, _, hreach, htags⟩ | ⟨_, _, htags⟩
  · rw [htags]
    exact Function.update_eq_self_iff.mpr (h.merges c merged hreach)
  · exact htags

theorem similar_of_returned (h : m.Similar st) (hharmless : m.Harmless target)
    (hrun : m.resolve fuel st target = .ok r) : m.Similar r.store := by
  have hsame : m.SameOutcome (m.resolve fuel st target) (m.resolve fuel m.fresh target) :=
    resolve_same h hharmless.asks
  rw [hrun] at hsame
  cases hfresh : m.resolve fuel m.fresh target with
  | ok r' =>
    rw [hfresh] at hsame
    exact ⟨hsame.tags.trans (tags_of_harmless hharmless hfresh), hsame.entered⟩
  | raise _ | fault | outOfFuel =>
    rw [hfresh] at hsame
    exact hsame.elim

variable (m) in
/-- The condition on a call. -/
def HarmlessCall (call : Call) : Prop :=
  ∀ target, m.target call = some target → m.Harmless target

/-- Harmless calls leave the model as it was loaded. -/
theorem similar_of_run {calls : List Call} (h : m.Run calls st)
    (hcalls : ∀ call ∈ calls, m.HarmlessCall call) : m.Similar st := by
  induction h with
  | nil => exact similar_fresh
  | @returned calls st call fuel r hrun hcall ih =>
    have hsimilar := ih fun call' hmem => hcalls call' (mem_cons_of_mem call hmem)
    unfold resolveCall at hcall
    cases htarget : m.target call with
    | none =>
      rw [htarget] at hcall
      cases hcall
    | some target =>
      rw [htarget] at hcall
      exact similar_of_returned hsimilar (hcalls call mem_cons_self target htarget) hcall
  | @died calls st call fuel hrun hcall ih =>
    exact ih fun call' hmem => hcalls call' (mem_cons_of_mem call hmem)

/-- After any harmless calls the next one returns what it returns first, and all tags are as
they were loaded. -/
theorem pureCall_of_harmless {calls : List Call} {call : Call} (h : m.Run calls st)
    (hcalls : ∀ call' ∈ call :: calls, m.HarmlessCall call') : m.PureCall st call := by
  have hsimilar := similar_of_run h fun call' hmem => hcalls call' (mem_cons_of_mem call hmem)
  refine ⟨hsimilar.tags, fun fuel => ?_, fun fuel r hrun => ?_⟩
  · unfold resolveCall
    cases htarget : m.target call with
    | none => rfl
    | some target =>
      exact (resolve_same hsimilar (hcalls call mem_cons_self target htarget).asks).answer_eq
  · exact (similar_of_run (.returned h hrun) hcalls).tags

/-- A class with an attribute that has a tag, and one without, both of a primitive type. -/
def tagged : Model where
  classes _ :=
    { package := "p"
      kind := .cls [⟨"a", .field, "int", "", Drtag.new.addTag "max" none "9"⟩,
        ⟨"b", .field, "int", "", .new⟩] []
      drtag := .new }
  class_hash _ := none

theorem mergeReplacing_new (d : Drtag) : d.mergeReplacing .new = d := by
  simp [Drtag.mergeReplacing, Drtag.new]

/-- The attribute without tags is resolved, and resolved again. -/
theorem pureCall_tagged : ∃ st, tagged.Run [.attr 0 1] st ∧ tagged.PureCall st (.attr 0 1) := by
  have hrun : tagged.resolveCall 2 tagged.fresh (.attr 0 1) = .ok _ := rfl
  refine ⟨_, .returned .nil hrun, pureCall_of_harmless (.returned .nil hrun) ?_⟩
  have hnone : ∀ name, ¬ tagged.Entered name := by
    rintro name ⟨c, base, hkind, _⟩
    cases hkind
  have hask : tagged.request tagged.fresh 0 (some "b") "int" = some (.primitive "int") := by decide
  have hmerges : ∀ c merged, tagged.Reaches (.attr 0 1) c merged →
      merged.foldl Drtag.mergeReplacing (tagged.classes c).drtag = (tagged.classes c).drtag := by
    intro c merged hreach
    cases hreach with
    | field hfd _ hsub =>
      cases hfd
      cases hsub with
      | primitive _ => exact mergeReplacing_new _
      | next hask' hnext _ =>
        cases hask.symm.trans hask'
        cases hnext
    | assoc hfd hstype _ _ =>
      cases hfd
      exact absurd rfl hstype
  intro call hcall target htarget
  have hattr : call = .attr 0 1 := by simpa using hcall
  subst hattr
  cases htarget
  exact ⟨fun name _ => hnone name, hmerges⟩

/-- After the attribute with a tag the other one has it too. -/
theorem not_pureCall_tagged :
    ∃ st, tagged.Run [.attr 0 0] st ∧ ¬ tagged.PureCall st (.attr 0 1) := by
  have hrun : tagged.resolveCall 2 tagged.fresh (.attr 0 0) = .ok _ := rfl
  refine ⟨_, .returned .nil hrun, fun h => ?_⟩
  have hanswer := (Prod.mk.inj (Outcome.ok.inj (h.same 2))).2
  have hlist : [(⟨"max", none, "9", 1⟩ : Tag)] = [] := congrArg Drtag.drtag_list hanswer
  cases hlist

end Drt.Model
