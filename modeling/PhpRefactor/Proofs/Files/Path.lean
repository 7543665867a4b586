import PhpRefactor.Files.Path

/-!
# Paths by their components

Joining paths and going up are defined on texts.  On components they do what their names say:
`Path.components_join` and `Path.components_parent`.  So a name behind a path leads on from where
the path leads (`Path.route_of_components`), and starts where it starts
(`Path.isRooted_of_components`).

A text is cut at its slashes, and a part stands for a component or for nothing.  Only what the first
part stands for depends on where it is (`Path.lead`), so a fact about components is one about a list
of parts, plus a look at the first.
-/

set_option autoImplicit false

namespace PhpRefactor

/-- The component leads on, and does not only say where a path starts. -/
def Component.leads : Component → Bool
  | .root | .here => false
  | .up | .name _ => true

namespace Path

variable {path name x : String} {cs p : List Char} {ps qs : List (List Char)}

/-! ## Parts -/

theorem parts_ne_nil (cs : List Char) : parts cs ≠ [] := by
  cases cs with
  | nil => exact List.cons_ne_nil _ _
  | cons c cs =>
    rw [parts]
    split
    · exact List.cons_ne_nil _ _
    · split <;> exact List.cons_ne_nil _ _

theorem exists_parts (cs : List Char) : ∃ p ps, parts cs = p :: ps :=
  List.exists_cons_of_ne_nil (parts_ne_nil cs)

theorem parts_cons_slash (cs : List Char) : parts ('/' :: cs) = [] :: parts cs := by
  rw [parts, if_pos rfl]

theorem parts_cons {c : Char} (hc : c ≠ '/') (h : parts cs = p :: ps) :
    parts (c :: cs) = (c :: p) :: ps := by
  rw [parts, if_neg hc, h]

theorem parts_append_slash (cs ds : List Char) :
    parts (cs ++ '/' :: ds) = parts cs ++ parts ds := by
  induction cs with
  | nil => exact parts_cons_slash ds
  | cons c cs ih =>
    by_cases hc : c = '/'
    · subst hc
      rw [List.cons_append, parts_cons_slash, parts_cons_slash, ih, List.cons_append]
    · obtain ⟨p, ps, hparts⟩ := exists_parts cs
      rw [hparts, List.cons_append] at ih
      rw [List.cons_append, parts_cons hc ih, parts_cons hc hparts, List.cons_append]

theorem parts_of_no_slash (h : '/' ∉ cs) : parts cs = [cs] := by
  induction cs with
  | nil => rfl
  | cons c cs ih =>
    obtain ⟨hc, hcs⟩ := not_or.mp (mt List.mem_cons.mpr h)
    exact parts_cons (Ne.symm hc) (ih hcs)

theorem no_slash_of_mem_parts (h : p ∈ parts cs) : '/' ∉ p := by
  induction cs generalizing p with
  | nil =>
    rw [List.mem_singleton.mp h]
    exact List.not_mem_nil
  | cons c cs ih =>
    by_cases hc : c = '/'
    · subst hc
      rw [parts_cons_slash, List.mem_cons] at h
      rcases h with rfl | h
      · exact List.not_mem_nil
      · exact ih h
    · obtain ⟨q, qs, hparts⟩ := exists_parts cs
      rw [parts_cons hc hparts, List.mem_cons] at h
      rcases h with rfl | h
      · have hq : '/' ∉ q := ih (hparts ▸ List.mem_cons_self)
        exact fun hmem => (List.mem_cons.mp hmem).elim (fun h => hc h.symm) hq
      · exact ih (hparts ▸ List.mem_cons_of_mem _ h)

/-- The first part is empty where the text is or starts with a slash. -/
theorem eq_of_parts_eq_nil_cons (h : parts cs = [] :: ps) :
    cs = [] ∧ ps = [] ∨ ∃ rest, cs = '/' :: rest ∧ ps = parts rest := by
  cases cs with
  | nil => exact .inl ⟨rfl, (List.cons.inj h).2.symm⟩
  | cons c cs =>
    by_cases hc : c = '/'
    · subst hc
      rw [parts_cons_slash] at h
      exact .inr ⟨cs, rfl, (List.cons.inj h).2.symm⟩
    · obtain ⟨q, qs, hparts⟩ := exists_parts cs
      rw [parts_cons hc hparts] at h
      exact absurd (List.cons.inj h).1 (List.cons_ne_nil _ _)

/-- The first part is a dot where the text is or starts with a dot and a slash. -/
theorem eq_of_parts_eq_dot_cons (h : parts cs = ['.'] :: ps) :
    cs = ['.'] ∨ ∃ rest, cs = '.' :: '/' :: rest := by
  cases cs with
  | nil => exact absurd (List.cons.inj h).1.symm (List.cons_ne_nil _ _)
  | cons c cs =>
    by_cases hc : c = '/'
    · subst hc
      rw [parts_cons_slash] at h
      exact absurd (List.cons.inj h).1.symm (List.cons_ne_nil _ _)
    · obtain ⟨q, qs, hparts⟩ := exists_parts cs
      rw [parts_cons hc hparts] at h
      obtain ⟨rfl, rfl⟩ := List.cons.inj (List.cons.inj h).1
      rcases eq_of_parts_eq_nil_cons hparts with ⟨rfl, -⟩ | ⟨rest, rfl, -⟩
      · exact .inl rfl
      · exact .inr ⟨rest, rfl⟩

theorem joinParts_cons_cons (p q : List Char) (ps : List (List Char)) :
    joinParts (p :: q :: ps) = p ++ '/' :: joinParts (q :: ps) := by
  rw [joinParts]

theorem parts_joinParts (hne : ps ≠ []) (h : ∀ p ∈ ps, '/' ∉ p) : parts (joinParts ps) = ps := by
  induction ps with
  | nil => exact absurd rfl hne
  | cons p ps ih =>
    have hp := h p List.mem_cons_self
    cases ps with
    | nil => exact parts_of_no_slash hp
    | cons q ps =>
      rw [joinParts_cons_cons, parts_append_slash, parts_of_no_slash hp,
        ih (List.cons_ne_nil _ _) fun r hr => h r (List.mem_cons_of_mem _ hr),
        List.singleton_append]

/-! ## Components -/

/-- What the first part of a path stands for; `only` says that there is no other. -/
def lead (p : List Char) (only : Bool) : List Component :=
  if p = [] then (if only then [] else [.root])
  else if p = ['.'] then [.here]
  else (component? p).toList

theorem filterMap_eq_of_ordinary (hnil : p ≠ []) (hdot : p ≠ ['.']) (only : Bool) :
    (p :: ps).filterMap component? = lead p only ++ ps.filterMap component? := by
  rw [lead, if_neg hnil, if_neg hdot, List.filterMap_cons]
  cases component? p <;> rfl

theorem components_of_parts (h : parts path.toList = p :: ps) :
    components path = lead p ps.isEmpty ++ ps.filterMap component? := by
  unfold components
  rw [h]
  by_cases hnil : p = []
  · subst hnil
    cases ps <;> rfl
  · by_cases hdot : p = ['.']
    · subst hdot
      rfl
    · rw [← filterMap_eq_of_ordinary hnil hdot]
      split
      · rename_i heq
        exact absurd (List.cons.inj heq).1 hnil
      · rename_i heq
        exact absurd (List.cons.inj heq).1 hdot
      · rfl

/-- A name that stands for itself: it is one part, and not a dot or two. -/
structure Plain (name : String) : Prop where
  no_slash : '/' ∉ name.toList
  component : component? name.toList = some (.name name)

instance (name : String) : Decidable (Plain name) :=
  decidable_of_iff ('/' ∉ name.toList ∧ component? name.toList = some (.name name))
    ⟨fun h => ⟨h.1, h.2⟩, fun h => ⟨h.no_slash, h.component⟩⟩

theorem component?_eq_some_name_iff :
    component? p = some (.name x) ↔ p ≠ [] ∧ p ≠ ['.'] ∧ p ≠ ['.', '.'] ∧ String.ofList p = x := by
  unfold component?
  split
  · rename_i h
    exact ⟨nofun, fun hname => absurd h (not_or.mpr ⟨hname.1, hname.2.1⟩)⟩
  · rename_i h
    obtain ⟨hnil, hdot⟩ := not_or.mp h
    split
    · rename_i hdots
      exact ⟨nofun, fun hname => absurd hdots hname.2.2.1⟩
    · rename_i hdots
      simp [hnil, hdot, hdots]

theorem plain_of_component (hslash : '/' ∉ p) (h : component? p = some (.name x)) : Plain x := by
  have hx : x.toList = p := by
    rw [← (component?_eq_some_name_iff.mp h).2.2.2, String.toList_ofList]
  exact ⟨hx ▸ hslash, hx ▸ h⟩

/-- The name at the end of a path is one part. -/
theorem plain_of_mem_components (h : .name x ∈ components path) : Plain x := by
  obtain ⟨p, ps, hparts⟩ := exists_parts path.toList
  have hslash : ∀ q ∈ p :: ps, '/' ∉ q := fun q hq => no_slash_of_mem_parts (hparts ▸ hq)
  rw [components_of_parts hparts, List.mem_append, List.mem_filterMap] at h
  rcases h with h | ⟨q, hq, hname⟩
  · refine plain_of_component (hslash p List.mem_cons_self) ?_
    unfold lead at h
    split at h
    · split at h <;> simp at h
    · split at h
      · simp at h
      · exact Option.mem_toList.mp h
  · exact plain_of_component (hslash q (List.mem_cons_of_mem _ hq)) hname

theorem plain_of_mem {c : Char} (hslash : '/' ∉ name.toList) (hc : c ∈ name.toList)
    (hdot : c ≠ '.') : Plain name := by
  refine ⟨hslash, component?_eq_some_name_iff.mpr ⟨?_, ?_, ?_, String.ofList_toList⟩⟩ <;>
  · intro heq
    rw [heq] at hc
    simp [hdot] at hc

theorem Plain.ne_empty (h : Plain name) : name.toList ≠ [] :=
  (component?_eq_some_name_iff.mp h.component).1

/-- A name below a path is one more part, or takes the place of an empty part at the end. -/
theorem exists_parts_join (h : Plain name) (base : String) :
    ∃ ps, parts (join base name).toList = ps ++ [name.toList] ∧
      (parts base.toList = ps ++ [[]] ∨ base ≠ "" ∧ parts base.toList = ps) := by
  have hhead : name.toList.head? ≠ some '/' := fun hhead =>
    h.no_slash (List.mem_of_mem_head? hhead)
  have hname := parts_of_no_slash h.no_slash
  rw [join, if_neg hhead]
  split
  · rename_i hclosed
    rcases Bool.or_eq_true_iff.mp hclosed with hempty | hlast
    · obtain rfl := String.isEmpty_iff.mp hempty
      exact ⟨[], by rw [String.empty_append, hname]; rfl, .inl rfl⟩
    · obtain ⟨front, hfront⟩ := List.getLast?_eq_some_iff.mp (of_decide_eq_true hlast)
      refine ⟨parts front, ?_, .inl ?_⟩
      · rw [String.toList_append, hfront, List.append_assoc, List.singleton_append,
          parts_append_slash, hname]
      · rw [hfront, parts_append_slash]
        rfl
  · rename_i hclosed
    have hlist : (base ++ "/" ++ name).toList = base.toList ++ '/' :: name.toList := by simp
    exact ⟨parts base.toList, by rw [hlist, parts_append_slash, hname],
      .inr ⟨fun hempty => hclosed (by rw [hempty]; rfl), rfl⟩⟩

/-- A name below a path is one more component. -/
theorem components_join (h : Plain name) (base : String) :
    components (join base name) = components base ++ [.name name] := by
  have hone : [name.toList].filterMap component? = [.name name] := by
    rw [List.filterMap_cons, h.component, List.filterMap_nil]
  have honly : ∀ qs : List (List Char), (qs ++ [name.toList]).isEmpty = false := by simp
  obtain ⟨ps, hpath, hbase | ⟨hne, hbase⟩⟩ := exists_parts_join h base
  · cases ps with
    | nil =>
      rw [components_of_parts hpath, components_of_parts hbase, lead, if_neg h.ne_empty,
        if_neg (component?_eq_some_name_iff.mp h.component).2.1, h.component]
      rfl
    | cons p ps =>
      have hsilent : [[]].filterMap component? = [] := rfl
      have honly' : (ps ++ [[]]).isEmpty = false := by simp
      rw [List.cons_append] at hpath hbase
      rw [components_of_parts hpath, components_of_parts hbase, honly, honly',
        List.filterMap_append, List.filterMap_append, hone, hsilent, List.append_nil,
        List.append_assoc]
  · cases ps with
    | nil => exact absurd hbase (parts_ne_nil _)
    | cons p ps =>
      have hlead : lead p false = lead p ps.isEmpty := by
        cases ps with
        | cons => rfl
        | nil =>
          have hp : p ≠ [] := by
            rintro rfl
            rcases eq_of_parts_eq_nil_cons hbase with ⟨hnil, -⟩ | ⟨rest, -, hrest⟩
            · exact hne (String.toList_eq_nil_iff.mp hnil)
            · exact parts_ne_nil rest hrest.symm
          rw [lead, lead, if_neg hp, if_neg hp]
      rw [List.cons_append] at hpath
      rw [components_of_parts hpath, components_of_parts hbase, honly, hlead,
        List.filterMap_append, hone, List.append_assoc]

/-! ## Going up -/

theorem isSilent_iff : isSilent p ↔ component? p = none := Option.isNone_iff_eq_none

/-- Silent parts at the front say nothing. -/
theorem filterMap_dropWhile_isSilent (ps : List (List Char)) :
    (ps.dropWhile isSilent).filterMap component? = ps.filterMap component? := by
  induction ps with
  | nil => rfl
  | cons p ps ih =>
    by_cases hp : isSilent p
    · rw [List.dropWhile_cons_of_pos hp, ih, List.filterMap_cons, isSilent_iff.mp hp]
    · rw [List.dropWhile_cons_of_neg hp]

/-- The part that is left out is the last one that stands for a component. -/
theorem filterMap_dropLastPart (ps : List (List Char)) :
    (dropLastPart ps).filterMap component? = (ps.filterMap component?).dropLast := by
  have hdrop : ∀ qs : List (List Char), ((qs.dropWhile isSilent).drop 1).filterMap component? =
      (qs.filterMap component?).tail := by
    intro qs
    rw [← filterMap_dropWhile_isSilent qs]
    cases hqs : qs.dropWhile isSilent with
    | nil => rfl
    | cons q rest =>
      have hq : ¬ isSilent q := by
        have := List.head?_dropWhile_not isSilent qs
        rw [hqs] at this
        simpa using this
      obtain ⟨c, hc⟩ := Option.ne_none_iff_exists'.mp (fun hnone => hq (isSilent_iff.mpr hnone))
      rw [List.filterMap_cons, hc]
      rfl
  rw [dropLastPart, List.filterMap_reverse, filterMap_dropWhile_isSilent, hdrop,
    List.filterMap_reverse, List.tail_reverse, List.reverse_reverse]

theorem dropLastPart_prefix_self (ps : List (List Char)) : dropLastPart ps <+: ps := by
  have hsuffix : ((ps.reverse.dropWhile isSilent).drop 1).dropWhile isSilent <:+ ps.reverse :=
    (List.dropWhile_suffix _).trans ((List.drop_suffix _ _).trans (List.dropWhile_suffix _))
  rw [dropLastPart, ← List.reverse_suffix, List.reverse_reverse]
  exact hsuffix

theorem eq_of_dropLastPart_eq_cons {q : List Char} (h : dropLastPart (p :: ps) = q :: qs) :
    q = p := by
  have hprefix := dropLastPart_prefix_self (p :: ps)
  rw [h] at hprefix
  exact (List.cons_prefix_cons.mp hprefix).1

theorem parts_joinParts_dropLastPart (hne : dropLastPart (parts cs) ≠ []) :
    parts (joinParts (dropLastPart (parts cs))) = dropLastPart (parts cs) :=
  parts_joinParts hne fun _ hp =>
    no_slash_of_mem_parts ((dropLastPart_prefix_self _).subset hp)

theorem filterMap_parts_joinParts_dropLastPart (cs : List Char) :
    (parts (joinParts (dropLastPart (parts cs)))).filterMap component? =
      ((parts cs).filterMap component?).dropLast := by
  rw [← filterMap_dropLastPart]
  by_cases hne : dropLastPart (parts cs) = []
  · rw [hne]
    rfl
  · rw [parts_joinParts_dropLastPart hne]

theorem getLast?_components (h : fileName? path = some name) :
    (components path).getLast? = some (.name name) := by
  unfold fileName? at h
  split at h
  · rename_i hlast
    exact Option.some.inj h ▸ hlast
  · exact nomatch h

theorem components_root (h : path.toList = '/' :: cs) :
    components path = .root :: (parts cs).filterMap component? := by
  obtain ⟨p, ps, hparts⟩ := exists_parts cs
  rw [components_of_parts (h ▸ parts_cons_slash cs), hparts]
  rfl

theorem components_here (h : parts path.toList = ['.'] :: ps) :
    components path = .here :: ps.filterMap component? := by
  rw [components_of_parts h]
  rfl

theorem dropLast_cons_of_getLast? {c d : Component} {l : List Component} (hne : c ≠ d)
    (h : (c :: l).getLast? = some d) : (c :: l).dropLast = c :: l.dropLast := by
  cases l with
  | nil => exact absurd (Option.some.inj h) hne
  | cons => exact List.dropLast_cons_cons

/-- What is left of a path from here. -/
theorem components_here_joinParts (cs : List Char) :
    components (String.ofList ('.' :: joinParts (dropLastPart (parts ('/' :: cs))))) =
      .here :: ((parts cs).filterMap component?).dropLast := by
  have hfilter : (dropLastPart (parts ('/' :: cs))).filterMap component? =
      ((parts cs).filterMap component?).dropLast := by
    rw [filterMap_dropLastPart, parts_cons_slash]
    rfl
  rw [← hfilter]
  cases hkept : dropLastPart (parts ('/' :: cs)) with
  | nil => decide
  | cons q qs =>
    obtain rfl : q = [] := eq_of_dropLastPart_eq_cons (parts_cons_slash cs ▸ hkept)
    have hjoined := parts_joinParts_dropLastPart (hkept ▸ List.cons_ne_nil _ _)
    rw [hkept] at hjoined
    have hparts := parts_cons (c := '.') (by decide) hjoined
    rw [components_here (by rw [String.toList_ofList]; exact hparts)]
    rfl

/-- What is left of a path that starts with a name. -/
theorem components_joinParts (hparts : parts cs = p :: ps) (hnil : p ≠ []) (hdot : p ≠ ['.']) :
    components (String.ofList (joinParts (dropLastPart (parts cs)))) =
      ((parts cs).filterMap component?).dropLast := by
  rw [← filterMap_dropLastPart]
  cases hkept : dropLastPart (parts cs) with
  | nil => decide
  | cons q qs =>
    obtain rfl : q = p := eq_of_dropLastPart_eq_cons (hparts ▸ hkept)
    have hjoined := parts_joinParts_dropLastPart (hkept ▸ List.cons_ne_nil _ _)
    rw [hkept] at hjoined
    rw [components_of_parts (by rw [String.toList_ofList]; exact hjoined),
      ← filterMap_eq_of_ordinary hnil hdot]

/-- The path above a name has the components before it. -/
theorem components_parent (h : fileName? path = some name) :
    components (parent path) = (components path).dropLast := by
  have hlast := getLast?_components h
  unfold parent
  split
  · -- From the root.
    rename_i rest htext
    rw [components_root htext] at hlast ⊢
    rw [components_root String.toList_ofList, filterMap_parts_joinParts_dropLastPart,
      dropLast_cons_of_getLast? Component.noConfusion hlast]
  · -- From here.
    rename_i rest htext
    have hparts : parts path.toList = ['.'] :: parts rest := by
      rw [htext, parts_cons (by decide) (parts_cons_slash rest)]
    rw [components_here hparts] at hlast ⊢
    rw [dropLast_cons_of_getLast? Component.noConfusion hlast]
    split
    · rename_i hsilent
      have hnone : (parts rest).filterMap component? = [] :=
        List.filterMap_eq_nil_iff.mpr fun p hp => isSilent_iff.mp (List.all_eq_true.mp hsilent p hp)
      rw [hnone] at hlast
      exact nomatch Option.some.inj hlast
    · exact components_here_joinParts rest
  · -- From a name.
    rename_i hroot hhere
    obtain ⟨p, ps, hparts⟩ := exists_parts path.toList
    have hnil : p ≠ [] := by
      rintro rfl
      rcases eq_of_parts_eq_nil_cons hparts with ⟨htext, -⟩ | ⟨rest, htext, -⟩
      · obtain rfl := String.toList_eq_nil_iff.mp htext
        exact nomatch hlast
      · exact hroot rest htext
    have hdot : p ≠ ['.'] := by
      rintro rfl
      rcases eq_of_parts_eq_dot_cons hparts with htext | ⟨rest, htext⟩
      · have hps : ps = [] := by
          rw [htext] at hparts
          exact (List.cons.inj hparts).2.symm
        rw [components_here hparts, hps] at hlast
        exact nomatch Option.some.inj hlast
      · exact hhere rest htext
    rw [components_joinParts hparts hnil hdot, hparts, filterMap_eq_of_ordinary hnil hdot,
      ← components_of_parts hparts]

theorem components_parent_join (h : Plain name) (base : String) :
    components (parent (join base name)) = components base := by
  have hname : fileName? (join base name) = some name := by
    rw [fileName?, components_join h, List.getLast?_concat]
  rw [components_parent hname, components_join h, List.dropLast_concat]

theorem plain_of_fileName? (h : fileName? path = some x) : Plain x :=
  plain_of_mem_components (List.mem_of_getLast? (getLast?_components h))

/-! ## Where a path starts, and how it leads on -/

/-- The components of a path are its start, where that is written, and its route. -/
theorem components_cases (path : String) :
    isRooted path = true ∧ components path = .root :: route path ∨
      isRooted path = false ∧
        (components path = route path ∨ components path = .here :: route path) := by
  obtain ⟨p, ps, hparts⟩ := exists_parts path.toList
  have hroute : route path = (p :: ps).filterMap component? := by rw [route, hparts]
  by_cases hnil : p = []
  · subst hnil
    rcases eq_of_parts_eq_nil_cons hparts with ⟨htext, rfl⟩ | ⟨rest, htext, -⟩
    · refine .inr ⟨by rw [isRooted, htext]; rfl, .inl ?_⟩
      rw [components_of_parts hparts, hroute]
      rfl
    · refine .inl ⟨by rw [isRooted, htext]; rfl, ?_⟩
      rw [components_root htext, route, htext, parts_cons_slash]
      rfl
  · have hrooted : isRooted path = false := by
      rw [isRooted, decide_eq_false_iff_not]
      intro hhead
      obtain ⟨rest, htext⟩ := List.head?_eq_some_iff.mp hhead
      rw [htext, parts_cons_slash] at hparts
      exact hnil (List.cons.inj hparts).1.symm
    refine .inr ⟨hrooted, ?_⟩
    by_cases hdot : p = ['.']
    · subst hdot
      exact .inr (by rw [components_here hparts, hroute]; rfl)
    · exact .inl (by rw [components_of_parts hparts, hroute, ← filterMap_eq_of_ordinary hnil hdot])

/-- What a path leads on to by a name has that name. -/
theorem fileName?_of_route {front : List Component} (h : route path = front ++ [.name x]) :
    fileName? path = some x := by
  have hlast : (components path).getLast? = some (.name x) := by
    rcases components_cases path with ⟨-, hpath⟩ | ⟨-, hpath | hpath⟩ <;> rw [hpath, h]
    · exact List.getLast?_concat (l := .root :: front)
    · exact List.getLast?_concat
    · exact List.getLast?_concat (l := .here :: front)
  rw [fileName?, hlast]

theorem leads_of_mem_route {c : Component} (h : c ∈ route path) : c.leads = true := by
  obtain ⟨p, -, hc⟩ := List.mem_filterMap.mp h
  unfold component? at hc
  split at hc
  · cases hc
  · split at hc <;> exact Option.some.inj hc ▸ rfl

theorem plain_of_mem_route (h : .name x ∈ route path) : Plain x := by
  obtain ⟨p, hp, hx⟩ := List.mem_filterMap.mp h
  exact plain_of_component (no_slash_of_mem_parts hp) hx

theorem route_eq_filter (path : String) : route path = (components path).filter (·.leads) := by
  have hself : (route path).filter (·.leads) = route path :=
    List.filter_eq_self.mpr fun _ => leads_of_mem_route
  rcases components_cases path with ⟨-, h⟩ | ⟨-, h | h⟩ <;> rw [h]
  · exact hself.symm
  · exact hself.symm
  · exact hself.symm

theorem isRooted_iff : isRooted path = true ↔ (components path).head? = some .root := by
  rcases components_cases path with ⟨hrooted, h⟩ | ⟨hrooted, h | h⟩ <;> rw [h, hrooted]
  · exact ⟨fun _ => rfl, fun _ => rfl⟩
  · refine ⟨nofun, fun hhead => ?_⟩
    exact nomatch leads_of_mem_route (List.mem_of_mem_head? hhead)
  · exact ⟨nofun, nofun⟩

/-- The same path starts in the same place and leads on the same way. -/
theorem eq_of_same {a b : String} (h : same a b = true) :
    isRooted a = isRooted b ∧ route a = route b := by
  have hsame : components a = components b := of_decide_eq_true h
  refine ⟨?_, by rw [route_eq_filter, hsame, ← route_eq_filter]⟩
  rw [Bool.eq_iff_iff, isRooted_iff, isRooted_iff, hsame]

variable {base : String}

/-- A name behind a path leads on from it. -/
theorem route_of_components (h : components path = components base ++ [.name x]) :
    route path = route base ++ [.name x] := by
  rw [route_eq_filter, route_eq_filter, h, List.filter_append]
  rfl

theorem isRooted_of_components (h : components path = components base ++ [.name x]) :
    isRooted path = isRooted base := by
  rw [Bool.eq_iff_iff, isRooted_iff, isRooted_iff, h]
  cases components base <;> simp

theorem components_eq_parent_append (h : fileName? path = some x) :
    components path = components (parent path) ++ [.name x] := by
  obtain ⟨front, hfront⟩ := List.getLast?_eq_some_iff.mp (getLast?_components h)
  rw [components_parent h, hfront, List.dropLast_concat]

/-- A name with an extension is its stem and the extension. -/
theorem splitAtDot_eq {ext : String} (h : (splitAtDot name).2 = some ext) :
    name = (splitAtDot name).1 ++ "." ++ ext := by
  have happend := List.takeWhile_append_dropWhile (p := (· ≠ '.')) (l := name.toList.reverse)
  have hhead := List.head?_dropWhile_not (· ≠ '.') name.toList.reverse
  unfold splitAtDot at h ⊢
  dsimp only at h ⊢
  split at h
  · exact nomatch h
  · exact nomatch h
  · rename_i c before hne hbefore
    rw [hbefore] at happend hhead
    obtain rfl : c = '.' := by simpa using hhead
    obtain rfl := Option.some.inj h
    have hname := congrArg List.reverse happend
    rw [List.reverse_reverse, List.reverse_append, List.reverse_cons] at hname
    refine String.toList_injective (hname.symm.trans ?_)
    simp

/-- A stem is made of what the name is made of. -/
theorem mem_of_mem_stem {c : Char} (h : c ∈ (splitAtDot name).1.toList) : c ∈ name.toList := by
  unfold splitAtDot at h
  dsimp only at h
  split at h
  · exact h
  · exact h
  · rename_i d before _ hbefore
    rw [String.toList_ofList, List.mem_reverse] at h
    have hmem := List.mem_cons_of_mem d h
    rw [← hbefore] at hmem
    exact List.mem_reverse.mp ((List.dropWhile_sublist _).subset hmem)

/-- A path with an extension has a name with a stem. -/
theorem exists_of_extension? {ext : String} (h : extension? path = some ext) :
    ∃ stem, fileStem? path = some stem ∧ fileName? path = some (stem ++ "." ++ ext) := by
  unfold extension? at h
  obtain ⟨x, hx, hext⟩ := Option.bind_eq_some_iff.mp h
  refine ⟨(splitAtDot x).1, ?_, ?_⟩
  · rw [fileStem?, hx, Option.map_some]
  · rw [hx, ← splitAtDot_eq hext]

end Path

end PhpRefactor
