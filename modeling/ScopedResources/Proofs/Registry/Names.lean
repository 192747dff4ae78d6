import ScopedResources.Proofs.Registry.Log

/-! # Unique names

A name belongs to its source: the same name in another source is another name. -/

namespace ScopedResources

/-- The two have one name in one source. -/
def Resource.Clashes (x y : Resource) : Prop := x.source == y.source ∧ x.name = y.name

/-- No two entries clash. -/
def Log.Distinct (log : Log) : Prop := log.Pairwise fun x y => ¬x.Clashes y

namespace Registry

/-- In no source do two resources share a name. -/
def NamesUnique (r : Registry) : Prop := ∀ s, ((r.inSource s).map (·.name)).Nodup

theorem Reflects.namesUnique_iff {r : Registry} {log : Log} (h : r.Reflects log) :
    r.NamesUnique ↔ log.Distinct := by
  constructor
  · intro hr
    refine List.pairwise_iff_forall_sublist.mpr fun {x y} hxy hclash => ?_
    -- Both are in the source of the first, where their name would stand twice.
    have hboth : [x, y].Sublist (r.inSource x.source) := by
      rw [h.inSource]
      have hfilter := hxy.filter fun z => z.source == x.source
      rwa [List.filter_eq_self.mpr] at hfilter
      intro z hz
      rcases List.mem_cons.mp hz with rfl | hz
      · exact BEq.rfl
      · rw [List.mem_singleton.mp hz]
        exact BEq.symm hclash.1
    have hnames : [x.name, y.name].Nodup := (hr x.source).sublist (hboth.map _)
    exact (List.nodup_cons.mp hnames).1 (List.mem_singleton.mpr hclash.2)
  · intro hlog s
    rw [h.inSource, List.Nodup, List.pairwise_map]
    refine (hlog.filter fun z => z.source == s).imp_of_mem fun {x y} hx hy hclash hname => ?_
    have hxs := (List.mem_filter.mp hx).2
    have hys := (List.mem_filter.mp hy).2
    exact hclash ⟨BEq.trans hxs (BEq.symm hys), hname⟩

end Registry

end ScopedResources
