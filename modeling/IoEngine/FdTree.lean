import IoEngine.RbAdjacent

/-!
# The Interface to the Tree

The service uses the tree through `rb_probe`, `rb_insert`, `rb_extract` and
`rb_ref_to_this`, and reads and writes the slots these return. `FdTree` collects these
operations, so that the service is modelled once, over any tree, and `LawfulFdTree` says
what it relies on: read as a finite map from `fd` to node, they look up, add and remove
one binding.

The pointer tree `RbMem` satisfies the laws under conditions on the state before an
insertion or an extraction (`insertOk`, `extractOk`); the finite map `FdMap` satisfies
them unconditionally.
-/

open RedBlack

namespace IoEngine

/-- The operations that the service uses on the tree of fds. `π` is a slot of the tree
(`rb_place`) together with the node that holds it. -/
class FdTree (τ : Type) (π : outParam Type) where
  /-- the tree of a new service -/
  empty : τ
  /-- `rb_probe(&iosvc->async_handlers, &parent, fd)` -/
  rbProbe : τ → ℤ → Option π
  /-- `*place` -/
  load : τ → π → Option Ptr
  /-- `*place = node` -/
  store : τ → π → Addr → Option τ
  /-- `make_rbnode(fd)` at a new address -/
  makeRbnode : τ → Addr → ℤ → τ
  /-- `free(node)` -/
  free : τ → Addr → τ
  /-- `rb_insert(node, place, parent, &iosvc->async_handlers)` -/
  rbInsert : τ → Addr → π → Option τ
  /-- `rb_extract(place, parent, &iosvc->async_handlers)` -/
  rbExtract : τ → π → Option (Addr × τ)
  /-- `rb_ref_to_this(node, &iosvc->async_handlers, &parent)` -/
  rbRefToThis : τ → Addr → Option π
  /-- `node->fd` -/
  fdOf : τ → Addr → Option ℤ
  /-- inserting a node for this `fd` leaves it in the slot probed for -/
  insertOk : τ → ℤ → Bool
  /-- extracting the node of this `fd` repairs the tree -/
  extractOk : τ → ℤ → Bool

/-- The node of an `fd`, `none` if there is none. -/
def FdTree.lookup {τ π : Type} [FdTree τ π] (t : τ) (fd : ℤ) : Ptr :=
  ((rbProbe t fd).bind fun p => load t p).join

open FdTree

/-- What the service relies on. -/
class LawfulFdTree (τ : Type) (π : outParam Type) [FdTree τ π] where
  /-- the tree is in order -/
  Valid : τ → Prop
  /-- the slot and the node that holds it belong together -/
  WfPlace : π → Prop
  valid_empty : Valid empty
  lookup_empty : ∀ fd, lookup (empty : τ) fd = none
  probe_total : ∀ {t : τ}, Valid t → ∀ fd, ∃ p, rbProbe t fd = some p ∧
    load t p = some (lookup t fd)
  probe_wf : ∀ {t : τ} {fd : ℤ} {p : π}, rbProbe t fd = some p → WfPlace p
  fdOf_iff : ∀ {t : τ}, Valid t → ∀ {a : Addr} {fd : ℤ},
    fdOf t a = some fd ↔ lookup t fd = some a
  store_same : ∀ {t : τ} {p : π} {a : Addr}, load t p = some (some a) → store t p a = some t
  insert_spec : ∀ {t : τ}, Valid t → ∀ {fd : ℤ} {a : Addr} {p : π}, rbProbe t fd = some p →
    lookup t fd = none → fdOf t a = none → insertOk t fd = true →
    ∃ t', rbInsert (makeRbnode t a fd) a p = some t' ∧ load t' p = some (some a) ∧ Valid t' ∧
      lookup t' = Function.update (lookup t) fd (some a)
  load_store : ∀ {t t' : τ} {p : π} {a : Addr}, store t p a = some t' →
    load t' p = some (some a)
  insert_bad : ∀ {t : τ}, Valid t → ∀ {fd : ℤ} {a : Addr} {p : π} {t' t'' : τ},
    rbProbe t fd = some p → lookup t fd = none → fdOf t a = none → insertOk t fd = false →
    rbInsert (makeRbnode t a fd) a p = some t' → store t' p a = some t'' → ¬ Valid t''
  dangling_bad : ∀ {t : τ}, Valid t → ∀ {fd : ℤ} {a : Addr} {p : π} {t' : τ},
    rbProbe t fd = some p → lookup t fd = none → fdOf t a = none →
    store (free (makeRbnode t a fd) a) p a = some t' → ¬ Valid t'
  extract_spec : ∀ {t : τ}, Valid t → ∀ {fd : ℤ} {a : Addr} {p : π}, rbProbe t fd = some p →
    lookup t fd = some a → extractOk t fd = true →
    ∃ t', rbExtract t p = some (a, t') ∧ Valid (free t' a) ∧
      lookup (free t' a) = Function.update (lookup t) fd none
  extract_bad : ∀ {t : τ}, Valid t → ∀ {fd : ℤ} {a b : Addr} {p : π} {t' : τ},
    rbProbe t fd = some p → lookup t fd = some a → extractOk t fd = false →
    rbExtract t p = some (b, t') → ¬ Valid (free t' b)
  slot_unique : ∀ {t : τ}, Valid t → ∀ {fd : ℤ} {a : Addr} {p : π}, WfPlace p →
    load t p = some (some a) → lookup t fd = some a → rbProbe t fd = some p
  refToThis : ∀ {t : τ}, Valid t → ∀ {fd : ℤ} {a : Addr}, lookup t fd = some a →
    rbRefToThis t a = rbProbe t fd

/-! ### The pointer tree -/

instance : FdTree RbMem (RbPlace × Ptr) where
  empty := RbMem.empty
  rbProbe m fd := m.rbProbe .root fd
  load m p := m.load p.1
  store m p a := m.store (some a) p.1
  makeRbnode := RbMem.makeRbnode
  free := RbMem.free
  rbInsert m a p := m.rbInsert a p.1 p.2
  rbExtract m p := m.rbExtract p.1 p.2
  rbRefToThis := RbMem.rbRefToThis
  fdOf m a := (m.node a).map RbLinks.fd
  insertOk m fd := !m.mixedInsert fd
  extractOk m fd := !m.adjacentBlackPred fd

/-- The search returns a slot with the node that holds it. -/
theorem rbProbeLoop_holder {m : RbMem} {fd : ℤ} {fuel : ℕ} (place : RbPlace)
    {r : RbPlace × Ptr} (h : m.rbProbeLoop fd fuel place place.holder = some r) :
    r.2 = r.1.holder := by
  induction fuel generalizing place with
  | zero => simp [RbMem.rbProbeLoop] at h
  | succ fuel ih =>
      simp only [RbMem.rbProbeLoop, bind, Option.bind_eq_some_iff] at h
      obtain ⟨p, -, h⟩ := h
      cases p with
      | none => exact Option.some.inj h ▸ rfl
      | some a =>
          obtain ⟨n, -, h⟩ := Option.bind_eq_some_iff.mp h
          split at h
          · exact Option.some.inj h ▸ rfl
          · exact ih (.child a _) h

/-- Writing to a slot what it already holds changes nothing. -/
theorem store_same_rbMem {m : RbMem} {place : RbPlace} {a : Addr}
    (h : m.load place = some (some a)) : m.store (some a) place = some m := by
  cases place with
  | root =>
      rw [← Option.some.inj h]
      rfl
  | child b d =>
      obtain ⟨n, hn, hd⟩ : ∃ n, m.node b = some n ∧ n.child d = some a := by
        simpa [RbMem.load] using h
      have hset : n.setChild d (some a) = n := by
        cases d <;> rw [← hd] <;> rfl
      have hupd : Function.update m.node b (some n) = m.node := by
        rw [← hn, Function.update_eq_self]
      simp [RbMem.store, RbMem.modify, hn, hset, hupd]

instance : LawfulFdTree RbMem (RbPlace × Ptr) where
  Valid := RbMem.Valid
  WfPlace p := p.2 = p.1.holder
  valid_empty := RbMem.valid_empty
  lookup_empty _ := rfl
  probe_total := by
    rintro t ⟨T, hT⟩ fd
    obtain ⟨c, s, rfl, hp, -, -⟩ := hT.probe fd
    have hload := (holds_plug.mp hT.holds).1.load
    exact ⟨_, hp, by simp [lookup, rbProbe, load, hp, hload]⟩
  probe_wf h := rbProbeLoop_holder .root h
  fdOf_iff := by
    rintro t ⟨T, hT⟩ a fd
    constructor
    · intro h
      obtain ⟨n, hn, -⟩ := Option.map_eq_some_iff.mp h
      obtain ⟨fd', hfd'⟩ := (hT.live_iff (a := a)).mp (by simp [hn])
      have := hT.fd_of_lookup hfd'
      obtain rfl : fd' = fd := Option.some.inj (this.symm.trans h)
      exact hfd'
    · exact hT.fd_of_lookup
  store_same := store_same_rbMem
  insert_spec := by
    rintro t ⟨T, hT⟩ fd a p hp habs hfresh hok
    obtain ⟨t', T', A, B, e', hT', hl, hl', hslot⟩ :=
      hT.insert hp habs (Option.map_eq_none_iff.mp hfresh)
    exact ⟨t', e', hslot.mpr (by simpa [insertOk] using hok), ⟨T', hT'⟩,
      hT.lookup_insert hT' habs hl hl'⟩
  load_store := RbMem.load_store
  insert_bad := by
    rintro t ⟨T, hT⟩ fd a p t' t'' hp habs hfresh hok hins
    obtain ⟨t₁, T', A, B, e', hT', hl, hl', hslot⟩ :=
      hT.insert hp habs (Option.map_eq_none_iff.mp hfresh)
    obtain rfl := Option.some.inj (e'.symm.trans hins)
    refine hT'.store_twice fd ?_ fun hload => ?_
    · rw [hT.lookup_insert hT' habs hl hl', Function.update_self]
    · simp [insertOk, hslot.mp hload] at hok
  dangling_bad _ _ _ _ _ _ _ _ hst := not_valid_of_store_freed (Function.update_self ..) hst
  extract_spec := by
    rintro t ⟨T, hT⟩ fd a p hp ha hok
    obtain ⟨t', T', A, B, e', hT', hl, hl'⟩ :=
      hT.extract hp ha (by simpa [extractOk] using hok)
    exact ⟨t', e', ⟨T', hT'⟩, hT.lookup_extract hT' hl hl'⟩
  extract_bad := by
    rintro t ⟨T, hT⟩ fd a b p t' hp ha hok hrun
    exact hT.extract_adjacent hp ha (by simpa [extractOk] using hok) hrun
  slot_unique := by
    rintro t ⟨T, hT⟩ fd a ⟨place, par⟩ hwf hload ha
    obtain rfl : par = place.holder := hwf
    exact hT.slot_unique hload ha
  refToThis := by
    rintro t ⟨T, hT⟩ fd a ha
    exact hT.refToThis ha

/-! ### The finite map -/

/-- The tree read as a finite map: the node of every `fd`, and the `fd` of every node. -/
structure FdMap where
  node : ℤ → Ptr
  fd : Addr → Option ℤ

instance : FdTree FdMap ℤ where
  empty := ⟨fun _ => none, fun _ => none⟩
  rbProbe _ fd := some fd
  load t k := some (t.node k)
  store t k a := some { t with node := Function.update t.node k (some a) }
  makeRbnode t a fd := { t with fd := Function.update t.fd a (some fd) }
  free t a := { t with fd := Function.update t.fd a none }
  rbInsert t a k := some { t with node := Function.update t.node k (some a) }
  rbExtract t k := (t.node k).map fun a => (a, { t with node := Function.update t.node k none })
  rbRefToThis t a := t.fd a
  fdOf t a := t.fd a
  insertOk _ _ := true
  extractOk _ _ := true

/-- A lookup in the map reads it. -/
theorem FdMap.lookup_eq (t : FdMap) (fd : ℤ) : lookup t fd = t.node fd := rfl

instance : LawfulFdTree FdMap ℤ where
  Valid t := ∀ a fd, t.fd a = some fd ↔ t.node fd = some a
  WfPlace _ := True
  valid_empty := by simp [empty]
  lookup_empty _ := rfl
  probe_total _ fd := ⟨fd, rfl, rfl⟩
  probe_wf _ := trivial
  fdOf_iff h := h _ _
  store_same := by
    rintro t p a h
    simp only [load, Option.some.injEq] at h
    simp [store, ← h]
  insert_spec := by
    rintro t hv fd a p hp habs hfresh -
    obtain rfl : fd = p := Option.some.inj hp
    rw [FdMap.lookup_eq] at habs
    simp only [fdOf] at hfresh
    refine ⟨_, rfl, by simp [load, makeRbnode], fun b fd' => ?_, rfl⟩
    simp only [makeRbnode]
    by_cases hb : b = a <;> by_cases hf : fd' = fd
    · simp [hb, hf]
    · subst hb
      have hno : t.node fd' ≠ some b := fun hc => by simp [(hv b fd').mpr hc] at hfresh
      simp [hf, hno, Ne.symm hf]
    · subst hf
      have hno : t.fd b ≠ some fd' := fun hc => by simp [(hv b fd').mp hc] at habs
      simp [hb, hno, Ne.symm hb]
    · simp [hb, hf, hv b fd']
  load_store := by
    rintro t t' p a h
    obtain rfl := Option.some.inj h
    simp [load]
  insert_bad := by
    rintro t hv fd a p t' t'' - - - hok
    cases hok
  dangling_bad := by
    rintro t hv fd a p t' - - - hst hv'
    obtain rfl := Option.some.inj hst
    have := (hv' a p).mpr (Function.update_self ..)
    simp [free] at this
  extract_spec := by
    rintro t hv fd a p hp ha -
    obtain rfl : fd = p := Option.some.inj hp
    rw [FdMap.lookup_eq] at ha
    refine ⟨_, by simp [rbExtract, ha]; rfl, fun b fd' => ?_, rfl⟩
    simp only [free]
    by_cases hb : b = a <;> by_cases hf : fd' = fd
    · simp [hb, hf]
    · subst hb
      have hno : t.node fd' ≠ some b := fun hc => by
        have h₁ := (hv b fd').mpr hc
        have h₂ := (hv b fd).mpr ha
        exact hf (Option.some.inj (h₁.symm.trans h₂))
      simp [hf, hno]
    · subst hf
      have hno : t.fd b ≠ some fd' := fun hc => by
        have h₁ := (hv b fd').mp hc
        exact hb (Option.some.inj (h₁.symm.trans ha))
      simp [hb, hno]
    · simp [hb, hf, hv b fd']
  extract_bad := by
    rintro t hv fd a b p t' hp ha hok
    cases hok
  slot_unique := by
    rintro t hv fd a p - hload ha
    have h₁ := (hv a p).mpr (Option.some.inj hload)
    have h₂ := (hv a fd).mpr ha
    rw [h₁, Option.some.injEq] at h₂
    exact congrArg some h₂.symm
  refToThis := by
    rintro t hv fd a ha
    exact (hv a fd).mpr ha

end IoEngine
