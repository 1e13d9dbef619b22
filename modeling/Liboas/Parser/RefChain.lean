import Liboas.Parser.External
import Liboas.Parser.Ref
import Mathlib.Data.List.Nodup

/-!
# Chains of references (`oas_ref_resolve`)

The resolver as it runs on a context, with the stack of visited references and `*out`. A
chain of local references goes from one `$ref` to the next, and ends where there is none.
-/

namespace Liboas

/-- `oas_ref_ctx_t`, less what a call changes. -/
structure ResolveCtx where
  rt : Runtime
  outside : Outside
  root : Json
  options : Option RefOptions

/-- What a call changes: the visited stack, `*out`, the cache and the errors. -/
structure ResolveState where
  visited : List CStr
  out : Option Json
  loader : Loader

namespace ResolveState

def withErrors (st : ResolveState) (errors : ErrorList) : ResolveState :=
  { st with loader := { st.loader with errors := errors } }

/-- An error that is reported with the text and the reference. -/
def stop (st : ResolveState) (rc : Int) (text : String) (ref : CStr) : Int × ResolveState :=
  (rc, st.withErrors (st.loader.errors.add .ref ref.bytes (ascii text ++ ref.bytes)))

/-- `visited_push`. -/
def push (st : ResolveState) (ref : CStr) : ResolveState :=
  { st with visited := st.visited ++ [ref] }

/-- `visited_pop`. -/
def pop (st : ResolveState) : ResolveState := { st with visited := st.visited.dropLast }

end ResolveState

namespace ResolveCtx

variable (ctx : ResolveCtx)

/-- The part of `oas_ref_resolve` for a reference that is not local. -/
def resolveOutside (ref : CStr) (st : ResolveState) : Int × ResolveState :=
  if ctx.options.isNone || st.loader.cache.isNone then
    st.stop (-ENOTSUP) "external $ref not supported: " ref
  else
    match resolveExternalRef ctx.rt ctx.outside ctx.options ref (oasUriParse ref) st.loader with
    | (.error rc, loader) => (rc.val, { st with loader := loader })
    | (.ok extRoot, loader) =>
      match (oasUriParse ref).fragment.filter (!·.bytes.isEmpty) with
      | none => (0, { st with out := some extRoot, loader := loader })
      | some fragment =>
        if 1024 ≤ fragment.length + 1 then (-ENAMETOOLONG, { st with loader := loader })
        else
          match oasJsonptrResolveEx ctx.rt extRoot fragment loader.errors with
          | (none, errors) => (-ENOENT, { st with loader := { loader with errors := errors } })
          | (some val, errors) =>
            (0, { st with out := some val, loader := { loader with errors := errors } })

/-- `oas_ref_resolve`, with arguments that are not null. -/
def oasRefResolve (ref : CStr) (st : ResolveState) : Int × ResolveState :=
  if st.visited.contains ref then st.stop (-ELOOP) "circular $ref detected: " ref
  else if maxRefDepth ≤ st.visited.length then
    st.stop (-ELOOP) "$ref chain too deep (max 64): " ref
  else if (oasUriParse ref).isFragmentOnly then
    match oasJsonptrResolveEx ctx.rt ctx.root (oasJsonptrFromRef ref) st.loader.errors with
    | (none, errors) => (-ENOENT, st.withErrors errors)
    | (some val, errors) =>
      match val.strMember "$ref" with
      | some nested =>
        let r := oasRefResolve nested ((st.withErrors errors).push ref)
        (r.1, r.2.pop)
      | none => (0, { st.withErrors errors with out := some val })
  else ctx.resolveOutside ref st
  termination_by maxRefDepth - st.visited.length
  decreasing_by
    simp only [ResolveState.push, ResolveState.withErrors, List.length_append, List.length_singleton]
    omega

end ResolveCtx

/-! ## One call -/

section Calls

variable {ctx : ResolveCtx} {ref : CStr} {st : ResolveState}

/-- What a local reference points to. -/
def ResolveCtx.pointed (ctx : ResolveCtx) (ref : CStr) : Option Json :=
  (oasJsonptrResolveEx ctx.rt ctx.root (oasJsonptrFromRef ref) none).1

theorem resolveEx_some {val : Json} (h : ctx.pointed ref = some val) (errors : ErrorList) :
    oasJsonptrResolveEx ctx.rt ctx.root (oasJsonptrFromRef ref) errors = (some val, errors) := by
  unfold ResolveCtx.pointed oasJsonptrResolveEx at h
  unfold oasJsonptrResolveEx
  split at h
  · rename_i hempty
    cases h
    rw [if_pos hempty]
  · rename_i hempty
    rw [if_neg hempty]
    cases hget : ctx.rt.ptrGet ctx.root (oasJsonptrFromRef ref) with
    | none =>
      rw [hget] at h
      cases h
    | some val' =>
      rw [hget] at h
      cases h
      rfl

theorem resolveEx_none (h : ctx.pointed ref = none) (errors : ErrorList) :
    (oasJsonptrResolveEx ctx.rt ctx.root (oasJsonptrFromRef ref) errors).1 = none := by
  unfold ResolveCtx.pointed oasJsonptrResolveEx at h
  unfold oasJsonptrResolveEx
  split at h
  · cases h
  · rename_i hempty
    rw [if_neg hempty]
    cases hget : ctx.rt.ptrGet ctx.root (oasJsonptrFromRef ref) with
    | none => rfl
    | some val =>
      rw [hget] at h
      cases h

theorem uriParse_fragmentOnly (h : isFragmentOnly ref = true) :
    (oasUriParse ref).isFragmentOnly = true := by
  unfold isFragmentOnly at h
  unfold oasUriParse
  cases hbytes : ref.bytes with
  | nil => simp [hbytes] at h
  | cons x bytes =>
    rw [hbytes, List.head?_cons, beq_iff_eq, Option.some.injEq] at h
    subst h
    rfl

/-- A call that goes on to look at what the reference points to. -/
structure GoesIn (ref : CStr) (st : ResolveState) : Prop where
  unvisited : ref ∉ st.visited
  room : st.visited.length < maxRefDepth
  fragment : isFragmentOnly ref = true

theorem GoesIn.resolve (h : GoesIn ref st) :
    ctx.oasRefResolve ref st =
      match oasJsonptrResolveEx ctx.rt ctx.root (oasJsonptrFromRef ref) st.loader.errors with
      | (none, errors) => (-ENOENT, st.withErrors errors)
      | (some val, errors) =>
        match val.strMember "$ref" with
        | some nested =>
          let r := ctx.oasRefResolve nested ((st.withErrors errors).push ref)
          (r.1, r.2.pop)
        | none => (0, { st.withErrors errors with out := some val }) := by
  rw [ResolveCtx.oasRefResolve, if_neg (by simpa using h.unvisited),
    if_neg (Nat.not_le.mpr h.room), if_pos (uriParse_fragmentOnly h.fragment)]

theorem GoesIn.follow (h : GoesIn ref st) {val : Json} (hval : ctx.pointed ref = some val)
    {nested : CStr} (hnested : val.strMember "$ref" = some nested) :
    ctx.oasRefResolve ref st =
      ((ctx.oasRefResolve nested (st.push ref)).1, (ctx.oasRefResolve nested (st.push ref)).2.pop) := by
  rw [h.resolve, resolveEx_some hval]
  simp only [hnested]
  rfl

theorem GoesIn.final (h : GoesIn ref st) {val : Json} (hval : ctx.pointed ref = some val)
    (hnone : val.strMember "$ref" = none) :
    ctx.oasRefResolve ref st = (0, { st with out := some val }) := by
  rw [h.resolve, resolveEx_some hval]
  simp only [hnone]
  rfl

theorem GoesIn.missing (h : GoesIn ref st) (hval : ctx.pointed ref = none) :
    ∃ errors, ctx.oasRefResolve ref st = (-ENOENT, st.withErrors errors) := by
  have hnone := resolveEx_none hval st.loader.errors
  rw [h.resolve]
  rcases hresolve : oasJsonptrResolveEx ctx.rt ctx.root (oasJsonptrFromRef ref) st.loader.errors
    with ⟨val, errors⟩
  rw [hresolve] at hnone
  dsimp only at hnone
  subst hnone
  exact ⟨errors, rfl⟩

/-- A repeated reference, or one too many. -/
theorem resolve_loop (h : ref ∈ st.visited ∨ maxRefDepth ≤ st.visited.length) :
    ∃ errors, ctx.oasRefResolve ref st = (-ELOOP, st.withErrors errors) := by
  rw [ResolveCtx.oasRefResolve]
  by_cases hvisited : ref ∈ st.visited
  · rw [if_pos (by simpa using hvisited)]
    exact ⟨_, rfl⟩
  · rw [if_neg (by simpa using hvisited), if_pos (h.resolve_left hvisited)]
    exact ⟨_, rfl⟩

theorem resolveOutside_visited : (ctx.resolveOutside ref st).2.visited = st.visited := by
  unfold ResolveCtx.resolveOutside
  repeat' split
  all_goals rfl

/-- On every return the visited stack is as it was before the call. -/
theorem resolve_visited (ref : CStr) (st : ResolveState) :
    (ctx.oasRefResolve ref st).2.visited = st.visited := by
  induction hroom : maxRefDepth - st.visited.length using Nat.strongRecOn generalizing ref st with
  | _ room ih =>
    rw [ResolveCtx.oasRefResolve]
    split
    · rfl
    · split
      · rfl
      · rename_i hdepth
        split
        · split
          · rfl
          · split
            · rename_i val errors _ _ nested _
              have hpush : ((st.withErrors errors).push ref).visited = st.visited ++ [ref] := rfl
              have hnested := ih (maxRefDepth - ((st.withErrors errors).push ref).visited.length)
                (by rw [hpush, List.length_append, List.length_singleton]; omega) nested
                ((st.withErrors errors).push ref) rfl
              show (ctx.oasRefResolve nested _).2.visited.dropLast = _
              rw [hnested, hpush, List.dropLast_concat]
            · rfl
        · exact resolveOutside_visited

end Calls

/-! ## Chains -/

section Chains

variable {ctx : ResolveCtx}

/-- A chain of references from the first one to the last; `refs` are those before the last. -/
inductive Leads (ctx : ResolveCtx) : CStr → List CStr → CStr → Prop where
  | here (ref : CStr) : Leads ctx ref [] ref
  | next {ref nested last : CStr} {refs : List CStr} {val : Json} : ctx.pointed ref = some val →
      val.strMember "$ref" = some nested → Leads ctx nested refs last →
      Leads ctx ref (ref :: refs) last

/-- Only fragment references are on the chain. -/
def FragmentChain (ctx : ResolveCtx) (ref : CStr) : Prop :=
  ∀ refs last, Leads ctx ref refs last → isFragmentOnly last = true

theorem FragmentChain.next {ref nested : CStr} {val : Json} (h : FragmentChain ctx ref)
    (hval : ctx.pointed ref = some val) (hnested : val.strMember "$ref" = some nested) :
    FragmentChain ctx nested :=
  fun _ _ hleads => h _ _ (.next hval hnested hleads)

/-- A call goes along the chain as long as it meets no reference twice and not too many. -/
theorem resolve_along {ref last : CStr} {refs : List CStr} (hleads : Leads ctx ref refs last)
    (hfragment : FragmentChain ctx ref) (st : ResolveState)
    (hnodup : (st.visited ++ refs).Nodup) (hroom : (st.visited ++ refs).length ≤ maxRefDepth) :
    let r := ctx.oasRefResolve last { st with visited := st.visited ++ refs }
    ctx.oasRefResolve ref st = (r.1, { r.2 with visited := st.visited }) := by
  induction hleads generalizing st with
  | here ref =>
    have hst : ({ st with visited := st.visited ++ [] } : ResolveState) = st := by
      rw [List.append_nil]
    have hvisited := @resolve_visited ctx ref st
    dsimp only
    rw [hst, ← hvisited]
  | @next ref nested last refs val hval hnested hrest ih =>
    have hentered : GoesIn ref st := by
      refine ⟨fun hmem => ?_, ?_, hfragment [] ref (.here ref)⟩
      · rw [List.nodup_append] at hnodup
        exact hnodup.2.2 ref hmem ref (List.mem_cons_self) rfl
      · rw [List.length_append, List.length_cons] at hroom
        omega
    have happend : (st.push ref).visited ++ refs = st.visited ++ ref :: refs := by
      simp [ResolveState.push]
    have hrun := ih (hfragment.next hval hnested) (st.push ref) (by rw [happend]; exact hnodup)
      (by rw [happend]; exact hroom)
    rw [happend] at hrun
    dsimp only at hrun ⊢
    rw [hentered.follow hval hnested, hrun]
    simp [ResolveState.push, ResolveState.pop]

/-- Where a chain stops after the references `visited`. -/
inductive StopsAt (ctx : ResolveCtx) (visited : List CStr) (ref : CStr) : Prop where
  | loop : ref ∈ visited ∨ visited.length = maxRefDepth → StopsAt ctx visited ref
  | missing : ref ∉ visited → visited.length < maxRefDepth → ctx.pointed ref = none →
      StopsAt ctx visited ref
  | final (val : Json) : ref ∉ visited → visited.length < maxRefDepth →
      ctx.pointed ref = some val → val.strMember "$ref" = none → StopsAt ctx visited ref

/-- Every chain stops. -/
theorem stops_somewhere (ref : CStr) (visited : List CStr) (hnodup : visited.Nodup)
    (hroom : visited.length ≤ maxRefDepth) :
    ∃ refs last, Leads ctx ref refs last ∧ (visited ++ refs).Nodup ∧
      (visited ++ refs).length ≤ maxRefDepth ∧ StopsAt ctx (visited ++ refs) last := by
  induction hleft : maxRefDepth - visited.length using Nat.strongRecOn generalizing ref visited with
  | _ left ih =>
    have hstop (h : StopsAt ctx visited ref) : ∃ refs last, Leads ctx ref refs last ∧
        (visited ++ refs).Nodup ∧ (visited ++ refs).length ≤ maxRefDepth ∧
        StopsAt ctx (visited ++ refs) last := by
      refine ⟨[], ref, .here ref, ?_⟩
      rw [List.append_nil]
      exact ⟨hnodup, hroom, h⟩
    by_cases hloop : ref ∈ visited ∨ visited.length = maxRefDepth
    · exact hstop (.loop hloop)
    · obtain ⟨hfresh, hfull⟩ := not_or.mp hloop
      have hless : visited.length < maxRefDepth := by omega
      cases hval : ctx.pointed ref with
      | none => exact hstop (.missing hfresh hless hval)
      | some val =>
        cases hnested : val.strMember "$ref" with
        | none => exact hstop (.final val hfresh hless hval hnested)
        | some nested =>
          have hlength : (visited ++ [ref]).length = visited.length + 1 := by simp
          have hnodup' : (visited ++ [ref]).Nodup := by
            rw [← List.concat_eq_append]
            exact List.Nodup.concat hfresh hnodup
          obtain ⟨refs, last, hleads, hrest⟩ := ih (maxRefDepth - (visited ++ [ref]).length)
            (by omega) nested (visited ++ [ref]) hnodup' (by omega) rfl
          refine ⟨ref :: refs, last, .next hval hnested hleads, ?_⟩
          rw [List.append_assoc, List.singleton_append] at hrest
          exact hrest

/-! ## What a chain ends with -/

/-- The last reference is the first that is met twice, or the first one too many. -/
def Loops (ctx : ResolveCtx) (ref : CStr) : Prop :=
  ∃ refs last, Leads ctx ref refs last ∧ refs.Nodup ∧ refs.length ≤ maxRefDepth ∧
    (last ∈ refs ∨ refs.length = maxRefDepth)

/-- The last reference is the first whose pointer leads nowhere. -/
def Dangles (ctx : ResolveCtx) (ref : CStr) : Prop :=
  ∃ refs last, Leads ctx ref refs last ∧ (refs ++ [last]).Nodup ∧
    (refs ++ [last]).length ≤ maxRefDepth ∧ ctx.pointed last = none

/-- All references are different, they are not too many, and the last one points to a value
with no string `$ref`. -/
def EndsWith (ctx : ResolveCtx) (ref : CStr) (val : Json) : Prop :=
  ∃ refs last, Leads ctx ref refs last ∧ (refs ++ [last]).Nodup ∧
    (refs ++ [last]).length ≤ maxRefDepth ∧ ctx.pointed last = some val ∧
    val.strMember "$ref" = none

variable {ref : CStr} {st : ResolveState}

theorem nodup_concat_iff {refs : List CStr} {last : CStr} :
    (refs ++ [last]).Nodup ∧ (refs ++ [last]).length ≤ maxRefDepth ↔
      refs.Nodup ∧ last ∉ refs ∧ refs.length < maxRefDepth := by
  rw [← List.concat_eq_append, List.nodup_concat, List.length_concat]
  tauto

theorem Loops.resolve (h : Loops ctx ref) (hfragment : FragmentChain ctx ref)
    (hfresh : st.visited = []) :
    (ctx.oasRefResolve ref st).1 = -ELOOP ∧ (ctx.oasRefResolve ref st).2.out = st.out := by
  obtain ⟨refs, last, hleads, hnodup, hroom, hloop⟩ := h
  have halong := resolve_along hleads hfragment st (by simpa [hfresh] using hnodup)
    (by simpa [hfresh] using hroom)
  obtain ⟨errors, hrun⟩ := @resolve_loop ctx last { st with visited := st.visited ++ refs }
    (by simpa [hfresh] using hloop.imp_right Eq.ge)
  rw [halong, hrun]
  exact ⟨rfl, rfl⟩

theorem Dangles.resolve (h : Dangles ctx ref) (hfragment : FragmentChain ctx ref)
    (hfresh : st.visited = []) :
    (ctx.oasRefResolve ref st).1 = -ENOENT ∧ (ctx.oasRefResolve ref st).2.out = st.out := by
  obtain ⟨refs, last, hleads, hnodup, hroom, hnone⟩ := h
  obtain ⟨hnodup, hnew, hroom⟩ := nodup_concat_iff.mp ⟨hnodup, hroom⟩
  have halong := resolve_along hleads hfragment st (by simpa [hfresh] using hnodup)
    (by simpa [hfresh] using hroom.le)
  have henters : GoesIn last { st with visited := st.visited ++ refs } :=
    ⟨by simpa [hfresh] using hnew, by simpa [hfresh] using hroom, hfragment _ _ hleads⟩
  obtain ⟨errors, hrun⟩ := henters.missing hnone
  rw [halong, hrun]
  exact ⟨rfl, rfl⟩

theorem EndsWith.resolve {val : Json} (h : EndsWith ctx ref val) (hfragment : FragmentChain ctx ref)
    (hfresh : st.visited = []) :
    (ctx.oasRefResolve ref st).1 = 0 ∧ (ctx.oasRefResolve ref st).2.out = some val := by
  obtain ⟨refs, last, hleads, hnodup, hroom, hval, hnone⟩ := h
  obtain ⟨hnodup, hnew, hroom⟩ := nodup_concat_iff.mp ⟨hnodup, hroom⟩
  have halong := resolve_along hleads hfragment st (by simpa [hfresh] using hnodup)
    (by simpa [hfresh] using hroom.le)
  have henters : GoesIn last { st with visited := st.visited ++ refs } :=
    ⟨by simpa [hfresh] using hnew, by simpa [hfresh] using hroom, hfragment _ _ hleads⟩
  rw [halong, henters.final hval hnone]
  exact ⟨rfl, rfl⟩

/-- A chain loops, or dangles, or ends with a value. -/
theorem chain_cases (ctx : ResolveCtx) (ref : CStr) :
    Loops ctx ref ∨ Dangles ctx ref ∨ ∃ val, EndsWith ctx ref val := by
  obtain ⟨refs, last, hleads, hnodup, hroom, hstop⟩ :=
    @stops_somewhere ctx ref [] List.nodup_nil (Nat.zero_le _)
  rw [List.nil_append] at hnodup hroom hstop
  cases hstop with
  | loop h => exact .inl ⟨refs, last, hleads, hnodup, hroom, h⟩
  | missing hnew hless hnone =>
    obtain ⟨hnodup, hroom⟩ := nodup_concat_iff.mpr ⟨hnodup, hnew, hless⟩
    exact .inr (.inl ⟨refs, last, hleads, hnodup, hroom, hnone⟩)
  | final val hnew hless hval hnone =>
    obtain ⟨hnodup, hroom⟩ := nodup_concat_iff.mpr ⟨hnodup, hnew, hless⟩
    exact .inr (.inr ⟨val, refs, last, hleads, hnodup, hroom, hval, hnone⟩)

/-- With nothing visited, a chain of local references is resolved if and only if it ends with
a value, and the code tells what else it does. `*out` is set only then, and nothing stays
visited. -/
theorem local_chain_resolves (ctx : ResolveCtx) (ref : CStr) (hfragment : FragmentChain ctx ref)
    (st : ResolveState) (hfresh : st.visited = []) :
    let r := ctx.oasRefResolve ref st
    (∀ val, r.1 = 0 ∧ r.2.out = some val ↔ EndsWith ctx ref val) ∧
      (r.1 = -ENOENT ↔ Dangles ctx ref) ∧ (r.1 = -ELOOP ↔ Loops ctx ref) ∧
      (r.1 = 0 ∨ r.1 = -ENOENT ∨ r.1 = -ELOOP) ∧ (r.1 ≠ 0 → r.2.out = st.out) ∧
      r.2.visited = st.visited := by
  dsimp only
  have hloops := fun h : Loops ctx ref => @Loops.resolve ctx ref st h hfragment hfresh
  have hdangles := fun h : Dangles ctx ref => @Dangles.resolve ctx ref st h hfragment hfresh
  have hends := fun (val : Json) (h : EndsWith ctx ref val) =>
    @EndsWith.resolve ctx ref st val h hfragment hfresh
  have hcodes : -ELOOP ≠ 0 ∧ -ENOENT ≠ 0 ∧ -ELOOP ≠ -ENOENT := by decide
  refine ⟨fun val => ⟨fun h => ?_, hends val⟩, ⟨fun h => ?_, fun h => (hdangles h).1⟩,
    ⟨fun h => ?_, fun h => (hloops h).1⟩, ?_, fun h => ?_, resolve_visited _ _⟩
  all_goals rcases chain_cases ctx ref with hcase | hcase | ⟨val', hcase⟩
  all_goals grind

end Chains

/-! ## Without options -/

/-- Without options the call does what `resolveWithin` says. -/
theorem resolve_eq_within {ctx : ResolveCtx} (hoptions : ctx.options = none) (ref : CStr)
    (st : ResolveState) :
    ctx.oasRefResolve ref st =
      match resolveWithin ctx.rt ctx.root (maxRefDepth - st.visited.length) st.visited ref
        st.loader.errors with
      | (.ok val, errors) => (0, { st.withErrors errors with out := some val })
      | (.error rc, errors) => (rc.val, st.withErrors errors) := by
  induction hroom : maxRefDepth - st.visited.length generalizing ref st with
  | zero =>
    rw [ResolveCtx.oasRefResolve, resolveWithin]
    split
    · rfl
    · rw [if_pos (by omega)]
      rfl
  | succ room ih =>
    rw [resolveWithin]
    by_cases hvisited : st.visited.contains ref
    · rw [ResolveCtx.oasRefResolve, if_pos hvisited, if_pos hvisited]
      rfl
    · rw [if_neg hvisited]
      cases hfragment : isFragmentOnly ref with
      | false =>
        have hparse : (oasUriParse ref).isFragmentOnly = false := by
          unfold isFragmentOnly at hfragment
          unfold oasUriParse
          split
          · rename_i bytes hbytes
            simp [hbytes] at hfragment
          · rfl
        rw [ResolveCtx.oasRefResolve, if_neg hvisited, if_neg (by omega), hparse]
        simp only [ResolveCtx.resolveOutside, hoptions, Option.isNone_none, Bool.true_or, if_true,
          Bool.false_eq_true, if_false]
        rfl
      | true =>
        have henters : GoesIn ref st := ⟨by simpa using hvisited, by omega, hfragment⟩
        cases hval : ctx.pointed ref with
        | none =>
          have hnone := resolveEx_none hval st.loader.errors
          rw [henters.resolve]
          rcases hresolve : oasJsonptrResolveEx ctx.rt ctx.root (oasJsonptrFromRef ref)
            st.loader.errors with ⟨val, errors⟩
          rw [hresolve] at hnone
          dsimp only at hnone
          subst hnone
          rfl
        | some val =>
          rw [if_pos rfl, resolveEx_some hval]
          dsimp only
          cases hnested : val.strMember "$ref" with
          | none =>
            rw [henters.final hval hnested]
            rfl
          | some nested =>
            have hpush : (st.push ref).visited = st.visited ++ [ref] := rfl
            rw [henters.follow hval hnested, ih nested (st.push ref)
              (by rw [hpush, List.length_append, List.length_singleton]; omega), hpush]
            have herrors : (st.push ref).loader.errors = st.loader.errors := rfl
            rw [herrors]
            rcases hrest : resolveWithin ctx.rt ctx.root room (st.visited ++ [ref]) nested
              st.loader.errors with ⟨_ | _, errors⟩
            · simp [hrest, ResolveState.push, ResolveState.pop, ResolveState.withErrors]
            · simp [hrest, ResolveState.push, ResolveState.pop, ResolveState.withErrors]

section Runs

/-- A reader of pointers that have one segment. -/
def oneSegment : Runtime :=
  { Runtime.knowing [] with
    ptrGet := fun root pointer => root.objGet (some (.ofBytes (pointer.bytes.drop 1))) }

/-- `{"a": {"$ref": "#/b"}, "b": 5}`. -/
def aToB : Json :=
  .obj [(ascii "a", .obj [(ascii "$ref", .str (ascii "#/b"))]), (ascii "b", .num (.uint 5))]

def aToBCtx : ResolveCtx where
  rt := oneSegment
  outside := ⟨.error ⟨-1, by decide⟩, fun _ => .cannotOpen ⟨-1, by decide⟩,
    fun _ _ _ _ => .error ⟨-1, by decide⟩, false⟩
  root := aToB
  options := none

theorem fragmentChain_aToB : FragmentChain aToBCtx (.ofString "#/a") := by
  have ha : aToBCtx.pointed (.ofString "#/a") =
      some (.obj [(ascii "$ref", .str (ascii "#/b"))]) := rfl
  have hb : aToBCtx.pointed (.ofString "#/b") = some (.num (.uint 5)) := rfl
  intro refs last hleads
  cases hleads with
  | here => decide
  | next hval hnested hrest =>
    rw [ha, Option.some.injEq] at hval
    subst hval
    have hnested : CStr.ofString "#/b" = _ := Option.some.inj hnested
    subst hnested
    cases hrest with
    | here => decide
    | next hval hnested _ =>
      rw [hb, Option.some.injEq] at hval
      subst hval
      cases hnested

theorem local_chain_resolves_aToB :
    let r := aToBCtx.oasRefResolve (.ofString "#/a") ⟨[], none, ⟨none, none, []⟩⟩
    (∀ val, r.1 = 0 ∧ r.2.out = some val ↔ EndsWith aToBCtx (.ofString "#/a") val) ∧
      (r.1 = -ENOENT ↔ Dangles aToBCtx (.ofString "#/a")) ∧
      (r.1 = -ELOOP ↔ Loops aToBCtx (.ofString "#/a")) ∧
      (r.1 = 0 ∨ r.1 = -ENOENT ∨ r.1 = -ELOOP) ∧ (r.1 ≠ 0 → r.2.out = none) ∧ r.2.visited = [] :=
  local_chain_resolves aToBCtx _ fragmentChain_aToB _ rfl

end Runs

end Liboas
