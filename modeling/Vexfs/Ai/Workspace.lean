import Vexfs.Ai.Memory
import Vexfs.Ai.Neural
import Vexfs.Collections.UnionFind

/-!
# Projects

At the end of a session the files are grouped into projects: two files that were opened
together in at least three sessions are in the same one.  The groups are found by union-find
over the pairs of files, in whatever order the maps are gone through, and are the connected
components with two files or more (`discoverProjects_components`).
-/

namespace Vexfs

open UnionFind

/-! ### Discovering projects -/

/-- What is known of a file. -/
structure FileStats where
  name : String
  totalOpens : UInt32
  lastTs : UInt64
  totalWriteSecs : UInt64
deriving DecidableEq, Repr

structure Project where
  name : String
  files : List UInt64
  fileNames : List String
  lastActiveTs : UInt64
  daysInactive : UInt64
  velocity : F32
  velocityRising : Bool
deriving DecidableEq, Repr

/-- The orders in which the hash tables are gone through. -/
structure DiscoveryOrders where
  inos : Arrangement UInt64
  pairs : Arrangement (UInt64 ×ₗ UInt64)
  clusters : Arrangement UInt64

def coThreshold : UInt32 := 3

/-- The last element with the greatest key. -/
def maxByKey (key : UInt64 → UInt64) : List UInt64 → Option UInt64
  | [] => none
  | x :: xs => some (xs.foldl (fun best y => if key best ≤ key y then y else best) x)

/-- The pairs of files that were opened together often enough. -/
def linkedPairs (order : Arrangement (UInt64 ×ₗ UInt64))
    (coAccess : FiniteMap (UInt64 ×ₗ UInt64) UInt32) : List (UInt64 × UInt64) :=
  ((coAccess.iter order).filter fun e => coThreshold ≤ e.2).map fun e => ofLex e.1

/-- Group inodes by their roots. -/
def grouped (fuel : ℕ) : List UInt64 → FiniteMap UInt64 UInt64 →
    FiniteMap UInt64 (List UInt64) → Except Stop (FiniteMap UInt64 (List UInt64))
  | [], _, clusters => .ok clusters
  | ino :: inos, parent, clusters => do
      let (root, parent) ← find fuel parent ino
      grouped fuel inos parent (clusters.push root ino)

section Discovery

variable [FloatOps]

/-- The project of a cluster. -/
def projectOf (accessCounts : FiniteMap UInt64 FileStats) (names : FiniteMap UInt64 String)
    (nowTs : UInt64) (fileInos : List UInt64) : Project :=
  let stats := fileInos.filterMap accessCounts.get
  let primaryIno := (maxByKey (fun ino => ((accessCounts.get ino).map
    FileStats.totalWriteSecs).getD 0) fileInos).getD (fileInos.headD 0)
  let lastActiveTs := (stats.map FileStats.lastTs).foldl max 0
  let daysInactive :=
    if 0 < lastActiveTs ∧ lastActiveTs < nowTs then (nowTs - lastActiveTs) / 86400 else 0
  { name := (names.get primaryIno).getD ("project_" ++ toString primaryIno.toNat)
    files := fileInos
    fileNames := fileInos.filterMap names.get
    lastActiveTs
    daysInactive
    velocity := FloatOps.div
      ((stats.map fun s => FloatOps.ofNat s.totalOpens.toNat).foldl FloatOps.add
        (FloatOps.ofNat 0))
      (FloatOps.ofNat fileInos.length)
    velocityRising := daysInactive < 2 }

@[simp]
theorem projectOf_files (accessCounts : FiniteMap UInt64 FileStats)
    (names : FiniteMap UInt64 String) (nowTs : UInt64) (fileInos : List UInt64) :
  (projectOf accessCounts names nowTs fileInos).files = fileInos
  := rfl

/-- The projects of two files or more.  `fuel` bounds the depth of the recursion that finds a
root. -/
def discoverProjects (fuel : ℕ) (orders : DiscoveryOrders)
    (coAccess : FiniteMap (UInt64 ×ₗ UInt64) UInt32)
    (accessCounts : FiniteMap UInt64 FileStats) (names : FiniteMap UInt64 String)
    (nowTs : UInt64) : Except Stop (List Project) :=
  let allInos := orders.inos.arrange accessCounts.keys
  if allInos = [] then .ok []
  else do
    let parent ← unions fuel (singletons allInos) (linkedPairs orders.pairs coAccess)
    let clusters ← grouped fuel allInos parent .empty
    let clusters := ((clusters.iter orders.clusters).map Prod.snd).filter fun c => 2 ≤ c.length
    return clusters.map (projectOf accessCounts names nowTs)

end Discovery

/-! ### Components -/

/-- Two files were opened together often enough. -/
def Together (coAccess : FiniteMap (UInt64 ×ₗ UInt64) UInt32) (a b : UInt64) : Prop :=
  ∃ count, coAccess.get (toLex (a, b)) = some count ∧ coThreshold ≤ count

/-- The files that are connected with one of the files. -/
def IsComponent (coAccess : FiniteMap (UInt64 ×ₗ UInt64) UInt32)
    (accessCounts : FiniteMap UInt64 FileStats) (S : Set UInt64) : Prop :=
  ∃ x ∈ accessCounts.keys, S = {y | Relation.EqvGen (Together coAccess) x y}

theorem mem_linkedPairs {order : Arrangement (UInt64 ×ₗ UInt64)}
    {coAccess : FiniteMap (UInt64 ×ₗ UInt64) UInt32} {a b : UInt64} :
  (a, b) ∈ linkedPairs order coAccess ↔ Together coAccess a b
  := by
  rw [linkedPairs, List.mem_map]
  constructor
  · rintro ⟨⟨key, count⟩, hmem, heq⟩
    rw [List.mem_filter, FiniteMap.mem_iter, decide_eq_true_iff] at hmem
    refine ⟨count, ?_, hmem.2⟩
    rw [← heq]
    exact hmem.1
  · rintro ⟨count, hget, hle⟩
    refine ⟨(toLex (a, b), count), ?_, rfl⟩
    rw [List.mem_filter, FiniteMap.mem_iter, decide_eq_true_iff]
    exact ⟨hget, hle⟩

/-- The clusters of a forest: the files with one root, in the order in which they come. -/
theorem exists_grouped {parent : FiniteMap UInt64 UInt64} {root : UInt64 → UInt64}
    (h : Forest parent root) {inos : List UInt64} (hinos : ∀ i ∈ inos, i ∈ parent.keys)
    (clusters : FiniteMap UInt64 (List UInt64)) :
  ∃ clusters', (∀ fuel, parent.len ≤ fuel → grouped fuel inos parent clusters = .ok clusters')
    ∧ ∀ r, (clusters'.get r).getD [] = (clusters.get r).getD [] ++ inos.filter (root · = r)
      ∧ ((clusters'.get r).isSome ↔ (clusters.get r).isSome ∨ ∃ i ∈ inos, root i = r)
  := by
  induction inos generalizing parent clusters with
  | nil =>
      refine ⟨clusters, fun _ _ => rfl, fun r => ⟨?_, ?_⟩⟩
      · rw [List.filter_nil, List.append_nil]
      · simp
  | cons ino inos ih =>
      rw [List.forall_mem_cons] at hinos
      obtain ⟨parent', hfind, h', hkeys⟩ := h.find hinos.1
      obtain ⟨clusters', hrun, hget⟩ :=
        ih h' (by rw [hkeys]; exact hinos.2) (clusters.push (root ino) ino)
      refine ⟨clusters', ?_, ?_⟩
      · intro fuel hfuel
        rw [grouped, hfind fuel hfuel]
        exact hrun fuel (FiniteMap.len_congr hkeys ▸ hfuel)
      · intro r
        obtain ⟨hlist, hsome⟩ := hget r
        rw [hlist, hsome, FiniteMap.push, FiniteMap.get_insert]
        by_cases hr : r = root ino
        · subst hr
          simp
        · have hr' : root ino ≠ r := fun heq => hr heq.symm
          simp [hr, hr']

/-- What a cluster is, when the grouping starts with none. -/
theorem clusters_eq {root : UInt64 → UInt64} {inos : List UInt64}
    {clusters : FiniteMap UInt64 (List UInt64)}
    (h : ∀ r, (clusters.get r).getD [] = inos.filter (root · = r)
      ∧ ((clusters.get r).isSome ↔ ∃ i ∈ inos, root i = r)) {r : UInt64} {c : List UInt64} :
  clusters.get r = some c ↔ c = inos.filter (root · = r) ∧ ∃ i ∈ inos, root i = r
  := by
  obtain ⟨hlist, hsome⟩ := h r
  constructor
  · intro hget
    rw [hget] at hlist hsome
    exact ⟨hlist, hsome.mp rfl⟩
  · rintro ⟨rfl, hi⟩
    obtain ⟨c, hc⟩ := Option.isSome_iff_exists.mp (hsome.mpr hi)
    rw [hc] at hlist
    rw [hc, ← hlist]
    rfl

/-- The elements with the root of an element are its component. -/
theorem isComponent_root {parent : FiniteMap UInt64 UInt64} {root : UInt64 → UInt64}
    {R : UInt64 → UInt64 → Prop} (h : Forest parent root) (hroot : Connects root R)
    {x : UInt64} (hx : x ∈ parent.keys) :
  {y | y ∈ parent.keys ∧ root y = root x} = {y | Relation.EqvGen R x y}
  := by
  ext y
  constructor
  · rintro ⟨-, hy⟩
    exact (hroot x y).mp hy.symm
  · intro hy
    have heq := (hroot x y).mpr hy
    refine ⟨?_, heq.symm⟩
    rw [FiniteMap.mem_keys]
    by_contra hnone
    have hself := h.root_of_none (Option.not_isSome_iff_eq_none.mp hnone)
    have hget := h.get_root (FiniteMap.mem_keys.mp hx)
    rw [heq, hself] at hget
    rw [hget] at hnone
    exact hnone rfl

section Components

variable (orders : DiscoveryOrders) {coAccess : FiniteMap (UInt64 ×ₗ UInt64) UInt32}
  {accessCounts : FiniteMap UInt64 FileStats}

theorem keys_singletons_arrange (order : Arrangement UInt64)
    (accessCounts : FiniteMap UInt64 FileStats) :
  (singletons (order.arrange accessCounts.keys)).keys = accessCounts.keys
  := by
  apply FiniteMap.keys_congr
  intro k
  rw [Bool.eq_iff_iff, ← FiniteMap.mem_keys, ← FiniteMap.mem_keys, mem_keys_singletons,
    order.mem_arrange]

/-- The pairs are united without missing a file. -/
theorem exists_unions_linkedPairs
    (hinos : ∀ a b, Together coAccess a b → a ∈ accessCounts.keys ∧ b ∈ accessCounts.keys) :
  ∃ parent root, (∀ fuel, accessCounts.len ≤ fuel →
      unions fuel (singletons (orders.inos.arrange accessCounts.keys))
        (linkedPairs orders.pairs coAccess) = .ok parent)
    ∧ Forest parent root ∧ parent.keys = accessCounts.keys ∧ Connects root (Together coAccess)
  := by
  have hkeys := keys_singletons_arrange orders.inos accessCounts
  have hpairs (p : UInt64 × UInt64) (hp : p ∈ linkedPairs orders.pairs coAccess) :
      p.1 ∈ (singletons (orders.inos.arrange accessCounts.keys)).keys
        ∧ p.2 ∈ (singletons (orders.inos.arrange accessCounts.keys)).keys := by
    rw [hkeys]
    exact hinos p.1 p.2 (mem_linkedPairs.mp hp)
  obtain ⟨parent, root, hrun, h, hkeys', hconnects⟩ :=
    exists_unions (forest_singletons _) hpairs connects_id
  refine ⟨parent, root, ?_, h, hkeys'.trans hkeys, ?_⟩
  · intro fuel hfuel
    exact hrun fuel (FiniteMap.len_congr hkeys ▸ hfuel)
  · have hedges : (fun x y => False ∨ (x, y) ∈ linkedPairs orders.pairs coAccess)
        = Together coAccess := by
      funext x y
      rw [false_or, mem_linkedPairs]
    exact hedges ▸ hconnects

/-- The clusters that the projects are made of. -/
theorem exists_clusters [FloatOps] (names : FiniteMap UInt64 String) (nowTs : UInt64)
    (hinos : ∀ a b, Together coAccess a b → a ∈ accessCounts.keys ∧ b ∈ accessCounts.keys) :
  ∃ parent root clusters, Forest parent root ∧ parent.keys = accessCounts.keys
    ∧ Connects root (Together coAccess)
    ∧ (∀ r c, FiniteMap.get clusters r = some c ↔
      c = (orders.inos.arrange accessCounts.keys).filter (root · = r)
        ∧ ∃ i ∈ orders.inos.arrange accessCounts.keys, root i = r)
    ∧ ∀ fuel, accessCounts.len ≤ fuel →
      discoverProjects fuel orders coAccess accessCounts names nowTs
        = .ok ((((clusters.iter orders.clusters).map Prod.snd).filter
          fun c => 2 ≤ c.length).map (projectOf accessCounts names nowTs))
  := by
  obtain ⟨parent, root, hunions, h, hkeys, hconnects⟩ := exists_unions_linkedPairs orders hinos
  have hknown (i : UInt64) (hi : i ∈ orders.inos.arrange accessCounts.keys) :
      i ∈ parent.keys := hkeys ▸ orders.inos.mem_arrange.mp hi
  obtain ⟨clusters, hgrouped, hget⟩ := exists_grouped h hknown .empty
  refine ⟨parent, root, clusters, h, hkeys, hconnects, ?_, ?_⟩
  · intro r c
    apply clusters_eq
    simpa using hget
  · intro fuel hfuel
    rw [discoverProjects]
    split
    · next hnil =>
      have hrun := hgrouped parent.len (Nat.le_refl _)
      rw [hnil] at hrun
      obtain rfl : FiniteMap.empty = clusters := Except.ok.inj hrun
      have hiter : (FiniteMap.empty : FiniteMap UInt64 (List UInt64)).iter orders.clusters = [] :=
        List.eq_nil_of_length_eq_zero (FiniteMap.length_iter _ _)
      rw [hiter]
      rfl
    · rw [hunions fuel hfuel]
      change (grouped fuel _ parent .empty >>= _) = _
      rw [hgrouped fuel (FiniteMap.len_congr hkeys ▸ hfuel)]
      rfl

/-- Projects are found when the files of all pairs are known, or no file is. -/
theorem exists_discoverProjects [FloatOps] (names : FiniteMap UInt64 String) (nowTs : UInt64)
    (h : accessCounts.keys = []
      ∨ ∀ a b, Together coAccess a b → a ∈ accessCounts.keys ∧ b ∈ accessCounts.keys) :
  ∃ projects, ∀ fuel, accessCounts.len ≤ fuel →
    discoverProjects fuel orders coAccess accessCounts names nowTs = .ok projects
  := by
  obtain hnil | hknown := h
  · use []
    intro fuel _
    rw [discoverProjects, hnil]
    exact if_pos (List.perm_nil.mp (orders.inos.perm []))
  · obtain ⟨_, _, clusters, -, -, -, -, hrun⟩ := exists_clusters orders names nowTs hknown
    exact ⟨_, hrun⟩

/-- Nothing is found when some files are known, but not those of all pairs. -/
theorem discoverProjects_missing [FloatOps] (names : FiniteMap UInt64 String) (nowTs : UInt64)
    (hne : accessCounts.keys ≠ [])
    (hmissing : ¬ ∀ a b, Together coAccess a b → a ∈ accessCounts.keys ∧ b ∈ accessCounts.keys)
    {fuel : ℕ} (hpos : 0 < fuel) (hfuel : accessCounts.len ≤ fuel) :
  discoverProjects fuel orders coAccess accessCounts names nowTs = .error .missingKey
  := by
  have hkeys := keys_singletons_arrange orders.inos accessCounts
  have hsome : orders.inos.arrange accessCounts.keys ≠ [] := by
    intro hnil
    have hperm := orders.inos.perm accessCounts.keys
    rw [hnil] at hperm
    exact hne hperm.nil_eq.symm
  have hpairs : ¬ ∀ p ∈ linkedPairs orders.pairs coAccess,
      p.1 ∈ (singletons (orders.inos.arrange accessCounts.keys)).keys
        ∧ p.2 ∈ (singletons (orders.inos.arrange accessCounts.keys)).keys := by
    rw [hkeys]
    exact fun hall => hmissing fun a b hab => hall (a, b) (mem_linkedPairs.mpr hab)
  have hstop := unions_missing (forest_singletons _) hpairs hpos
    (FiniteMap.len_congr hkeys ▸ hfuel)
  rw [discoverProjects, if_neg hsome, hstop]
  rfl

end Components

/-- When the files of all pairs are known, the projects are the connected components of two
files or more, whatever the orders are; as many steps as there are files are enough to find
each root. -/
theorem discoverProjects_components [FloatOps] (orders : DiscoveryOrders)
    (coAccess : FiniteMap (UInt64 ×ₗ UInt64) UInt32) (accessCounts : FiniteMap UInt64 FileStats)
    (names : FiniteMap UInt64 String) (nowTs : UInt64)
    (hinos : ∀ a b count, coAccess.get (toLex (a, b)) = some count →
      a ∈ accessCounts.keys ∧ b ∈ accessCounts.keys) :
  ∃ projects, (∀ fuel, accessCounts.len ≤ fuel →
      discoverProjects fuel orders coAccess accessCounts names nowTs = .ok projects)
    ∧ (∀ S : Finset UInt64, (∃ p ∈ projects, p.files.toFinset = S)
      ↔ IsComponent coAccess accessCounts S ∧ 2 ≤ S.card)
    ∧ (∀ p ∈ projects, p.files.Nodup)
    ∧ projects.Pairwise fun p q => p.files.Disjoint q.files
  := by
  obtain ⟨parent, root, clusters, h, hkeys, hconnects, hclusters, hrun⟩ :=
    exists_clusters orders names nowTs fun a b ⟨count, hget, _⟩ => hinos a b count hget
  have hnodup : (orders.inos.arrange accessCounts.keys).Nodup :=
    (orders.inos.perm _).nodup_iff.mpr accessCounts.nodup_keys
  have hmem {x : UInt64} : x ∈ orders.inos.arrange accessCounts.keys ↔ x ∈ parent.keys := by
    rw [orders.inos.mem_arrange, hkeys]
  have hset (x : UInt64) (hx : x ∈ parent.keys) :
      (((orders.inos.arrange accessCounts.keys).filter (root · = root x)).toFinset : Set UInt64)
        = {y | Relation.EqvGen (Together coAccess) x y} := by
    rw [← isComponent_root h hconnects hx]
    ext y
    simp [hmem]
  have hcard (r : UInt64) :
      ((orders.inos.arrange accessCounts.keys).filter (root · = r)).toFinset.card
        = ((orders.inos.arrange accessCounts.keys).filter (root · = r)).length :=
    List.toFinset_card_of_nodup (hnodup.filter _)
  refine ⟨_, hrun, ?_, ?_, ?_⟩
  · intro S
    simp only [List.mem_map, List.mem_filter, decide_eq_true_iff]
    constructor
    · rintro ⟨_, ⟨_, ⟨⟨⟨r, c⟩, hc, rfl⟩, hlength⟩, rfl⟩, rfl⟩
      obtain ⟨rfl, x, hx, rfl⟩ := (hclusters r c).mp (FiniteMap.mem_iter.mp hc)
      rw [projectOf_files]
      refine ⟨⟨x, hkeys ▸ hmem.mp hx, hset x (hmem.mp hx)⟩, ?_⟩
      rw [hcard]
      exact hlength
    · rintro ⟨⟨x, hx, hS⟩, hle⟩
      have hx' : x ∈ parent.keys := hkeys ▸ hx
      have heq : ((orders.inos.arrange accessCounts.keys).filter (root · = root x)).toFinset = S :=
        Finset.coe_injective ((hset x hx').trans hS.symm)
      have hget := (hclusters (root x) _).mpr ⟨rfl, x, hmem.mpr hx', rfl⟩
      refine ⟨_, ⟨_, ⟨⟨_, FiniteMap.mem_iter.mpr hget, rfl⟩, ?_⟩, rfl⟩, ?_⟩
      · rw [← hcard, heq]
        exact hle
      · rw [projectOf_files, heq]
  · intro p hp
    simp only [List.mem_map, List.mem_filter] at hp
    obtain ⟨_, ⟨⟨⟨r, c⟩, hc, rfl⟩, -⟩, rfl⟩ := hp
    obtain ⟨rfl, -⟩ := (hclusters r c).mp (FiniteMap.mem_iter.mp hc)
    exact hnodup.filter _
  · apply List.Pairwise.map
    · exact fun c d hcd => hcd
    · apply List.Pairwise.filter
      have hiter := List.pairwise_map.mp (clusters.nodup_keys_iter orders.clusters)
      apply List.pairwise_map.mpr
      apply hiter.imp_of_mem
      rintro ⟨r, c⟩ ⟨r', c'⟩ hc hc' hne
      obtain ⟨rfl, -⟩ := (hclusters r c).mp (FiniteMap.mem_iter.mp hc)
      obtain ⟨rfl, -⟩ := (hclusters r' c').mp (FiniteMap.mem_iter.mp hc')
      intro x hx hx'
      rw [projectOf_files, List.mem_filter, decide_eq_true_iff] at hx hx'
      exact hne (hx.2.symm.trans hx'.2)

/-- Two files that were opened together three times, and a third file, make one project. -/
theorem discoverProjects_components_three_files :
  let _ := FloatOps.machine
  let stats : FileStats := ⟨"f", 3, 86400, 3⟩
  let accessCounts := ((FiniteMap.empty.insert 1 stats).insert 2 stats).insert 3 stats
  let coAccess := FiniteMap.empty.insert (toLex ((1 : UInt64), (2 : UInt64))) (3 : UInt32)
  ∃ projects, (∀ fuel, accessCounts.len ≤ fuel →
      discoverProjects fuel ⟨.id, .id, .id⟩ coAccess accessCounts .empty 90000 = .ok projects)
    ∧ (∀ S : Finset UInt64, (∃ p ∈ projects, p.files.toFinset = S)
      ↔ IsComponent coAccess accessCounts S ∧ 2 ≤ S.card)
    ∧ (∀ p ∈ projects, p.files.Nodup)
    ∧ projects.Pairwise fun p q => p.files.Disjoint q.files
  := by
  intro _ stats accessCounts coAccess
  apply discoverProjects_components
  intro a b count hget
  change (FiniteMap.empty.insert _ _).get _ = _ at hget
  rw [FiniteMap.get_insert] at hget
  split at hget
  · next heq =>
    obtain ⟨rfl, rfl⟩ := Prod.mk.inj (toLex.injective heq)
    exact ⟨by decide, by decide⟩
  · cases hget

end Vexfs
