import Midlevel.Cache

/-!
Disks that behave as maps from paths to contents.

`MapLike` says what the operations of such a disk do to its contents: a file is read as it was
last written, writing one file touches no other, and directories never stand in the way. The cache
is used on such disks only through `get_eq` and `put_eq`. `FileMap` is the plainest of them, the
map itself.
-/

namespace Midlevel.Files

variable {F : Type}

def overwrite (c : Text → Option Text) (path bytes : Text) : Text → Option Text :=
  fun p => if p = path then some bytes else c p

/-- The disk is as good as the map `content` of its files. -/
structure MapLike [Files (StateM F)] (content : F → Text → Option Text) : Prop where
  read_some : ∀ d path bytes, content d path = some bytes →
    ∃ d', (read path : StateM F _).run d = (.ok bytes, d') ∧ content d' = content d
  read_none : ∀ d path, content d path = none →
    ∃ e d', (read path : StateM F _).run d = (.error e, d') ∧ e.reason = .notFound ∧
      content d' = content d
  write : ∀ d path bytes, ∃ d', (write path bytes : StateM F _).run d = (.ok (), d') ∧
    content d' = overwrite (content d) path bytes
  makeDirs : ∀ d path, ∃ d', (makeDirs path : StateM F _).run d = (.ok (), d') ∧
    content d' = content d

namespace MapLike

variable [Files (StateM F)] {content : F → Text → Option Text} (hmap : MapLike content)
  (s : Cache.Store)
  (key : Cache.Digest) (d : F)
include hmap

theorem get_eq : ∃ d', (s.get key : StateM F _).run d =
    (((content d (s.pathOf key)).map (Cache.Store.interpret key)).getD (.ok none), d') ∧
      content d' = content d := by
  unfold Cache.Store.get
  rw [StateT.run_bind]
  rcases hfile : content d (s.pathOf key) with _ | bytes
  · obtain ⟨⟨op, path, reason⟩, d', hread, hreason, hsame⟩ := hmap.read_none d _ hfile
    obtain rfl : reason = .notFound := hreason
    refine ⟨d', ?_, hsame⟩
    rw [hread]
    rfl
  · obtain ⟨d', hread, hsame⟩ := hmap.read_some d _ _ hfile
    refine ⟨d', ?_, hsame⟩
    rw [hread]
    rfl

theorem put_eq (e : Cache.Entry) : ∃ d', (s.put key e : StateM F _).run d = (.ok (), d') ∧
    content d' = overwrite (content d) (s.pathOf key) e.encode := by
  obtain ⟨d₁, hdirs, hsame⟩ := hmap.makeDirs d (Path.parent (s.pathOf key))
  obtain ⟨d₂, hwrite, hwritten⟩ := hmap.write d₁ (s.pathOf key) e.encode
  refine ⟨d₂, ?_, hwritten.trans (by rw [hsame])⟩
  unfold Cache.Store.put
  rw [StateT.run_bind, hdirs]
  show StateT.run (_ >>= _) d₁ = _
  rw [StateT.run_bind, hwrite]
  rfl

end MapLike

/-! ### The map as a disk -/

structure FileMap where
  content : Text → Option Text

instance : Files (StateM FileMap) where
  workingDir := return "/"
  read path := return ((← get).content path).elim (.error ⟨"open", path, .notFound⟩) .ok
  write path bytes := do
    modify fun d => ⟨overwrite d.content path bytes⟩
    return .ok ()
  stat path := return ((← get).content path).elim (.error ⟨"stat", path, .notFound⟩) fun _ => .ok ()
  makeDirs _ := return .ok ()
  removeAll path := do
    modify fun d => ⟨fun p => if (path ++ "/").isPrefixOf (p ++ "/") then none else d.content p⟩
    return .ok ()

def FileMap.empty : FileMap := ⟨fun _ => none⟩

theorem mapLike_fileMap : MapLike FileMap.content where
  read_some d path bytes h := ⟨d, by
    show (Option.elim (d.content path) _ _, d) = _
    rw [h]
    rfl, rfl⟩
  read_none d path h := ⟨⟨"open", path, .notFound⟩, d, by
    show (Option.elim (d.content path) _ _, d) = _
    rw [h]
    rfl, rfl, rfl⟩
  write _ _ _ := ⟨_, rfl, rfl⟩
  makeDirs d _ := ⟨d, rfl, rfl⟩

end Midlevel.Files
