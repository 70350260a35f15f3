import SystemsLabs.Proxylab.TinyReplies
import SystemsLabs.Schemes.Paths

/-! @lab proxylab | file:tiny/tiny.c (parse_uri) | structure:names of files |
    main result:files stay in the server's directory, programs do not

    `parse_uri` refuses a static URI with `/../` in it, so that no inner component of the file name is
    `..`. For programs there is no such test. -/

namespace Labs.Tiny
open Schemes
open Labs.Http (Bytes MAXLINE ReadEv)

variable {uri name : Bytes}

theorem static_cases (h : parse_uri uri = .static name) :
    uri.head? = some 47 ∧ ¬ str "/../" <:+: uri ∧
      name = 46 :: uri ++ if uri.getLast? = some 47 then str "home.html" else [] := by
  rw [parse_uri] at h
  by_cases hhead : uri.head? = some 47
  · rw [if_neg (not_not.mpr hhead)] at h
    by_cases hcgi : cgi_bin.isPrefixOf uri = true
    · rw [if_pos hcgi] at h
      simp only at h
      split at h
      · cases h
      · split at h <;> cases h
    · rw [if_neg hcgi] at h
      by_cases hup : (strstr uri (str "/../")).isSome = true
      · rw [if_pos hup] at h
        cases h
      · rw [if_neg hup] at h
        by_cases hlen : (46 :: uri ++ if uri.getLast? = some 47 then str "home.html" else []).length ≥
            MAXLINE
        · rw [if_pos hlen] at h
          cases h
        · rw [if_neg hlen] at h
          exact ⟨hhead, fun hin => hup (strstr_isSome.mpr hin), (ParseResult.static.inj h).symm⟩
  · rw [if_pos hhead] at h
    cases h

theorem infix_of_dot (h : str "/../" <:+: 46 :: uri) : str "/../" <:+: uri := by
  rcases List.infix_cons_iff.mp h with hpre | hin
  · exact absurd (List.cons.inj (List.prefix_iff_eq_append.mp hpre)).1 (by decide)
  · exact hin

/-- Inner components of a static name are no `..`. -/
theorem static_inner (h : parse_uri uri = .static name) : dotdot ∉ (components name).dropLast := by
  obtain ⟨hhead, hno, rfl⟩ := static_cases h
  obtain ⟨c, u, rfl⟩ : ∃ c u, uri = c :: u := by
    cases uri with
    | nil => cases hhead
    | cons c u => exact ⟨c, u, rfl⟩
  obtain rfl : c = 47 := Option.some.inj hhead
  have hplain : dotdot ∉ (components (46 :: 47 :: u)).dropLast := by
    have hfirst : components (46 :: 47 :: u) = [46] :: components u :=
      components_append [46] u
    obtain ⟨f, fs, hf⟩ := components_cases u
    rw [hfirst, hf, List.dropLast_cons_cons, List.mem_cons, not_or]
    refine ⟨by decide, fun hin => hno (infix_of_dot (components_inner (w := dotdot) ?_))⟩
    rwa [hfirst, List.tail_cons, hf]
  by_cases hdir : (47 :: u).getLast? = some 47
  · obtain ⟨v, hv⟩ := List.getLast?_eq_some_iff.mp hdir
    rw [if_pos hdir]
    have hname : 46 :: 47 :: u ++ str "home.html" = (46 :: v) ++ 47 :: str "home.html" := by
      rw [hv]
      simp
    have hdrop : components (46 :: 47 :: u) = components (46 :: v) ++ [[]] := by
      rw [hv]
      exact components_append (46 :: v) []
    have hhome : components (str "home.html") = [str "home.html"] :=
      components_of_not_mem (by decide)
    rw [hname, components_append, hhome, List.dropLast_concat]
    rwa [hdrop, List.dropLast_concat] at hplain
  · rw [if_neg hdir, List.append_nil]
    exact hplain

theorem parse_uri_program {t : Bytes} (ht : 63 ∉ t) (hlen : t.length + 13 < MAXLINE) :
    parse_uri (str "/cgi-bin/../" ++ t) = .dynamic (str "./cgi-bin/../" ++ t) [] := by
  have hq : (63 : UInt8) ∉ str "/cgi-bin/../" ++ t := by
    rw [List.mem_append, not_or]
    exact ⟨by decide, ht⟩
  have htake : (str "/cgi-bin/../" ++ t).takeWhile (· ≠ 63) = str "/cgi-bin/../" ++ t :=
    List.takeWhile_eq_self_iff.mpr (ne_of_not_mem hq)
  have hpre : cgi_bin.isPrefixOf (str "/cgi-bin/../" ++ t) = true :=
    List.isPrefixOf_iff_prefix.mpr ⟨str "../" ++ t, rfl⟩
  have hname : 46 :: (str "/cgi-bin/../" ++ t) = str "./cgi-bin/../" ++ t := rfl
  have hshort : ¬ (str "./cgi-bin/../" ++ t).length ≥ MAXLINE := by
    rw [List.length_append]
    change ¬ 13 + t.length ≥ MAXLINE
    omega
  have hhead : (str "/cgi-bin/../" ++ t).head? = some 47 := rfl
  rw [parse_uri, if_neg (not_not.mpr hhead), if_pos hpre, strstr_single, if_neg hq]
  simp only [htake, hname]
  rw [if_neg (by decide), if_neg hshort]
  rfl

/-- The names of static files leave the server's directory at their last component at most; but
    every path can be had as the name of a program. -/
theorem names_walk :
    (∀ uri name, parse_uri uri = .static name →
      (walk [] (components name).dropLast).isSome ∧
        ((components name).getLast? ≠ some dotdot → (walk [] (components name)).isSome)) ∧
    ∀ t : Bytes, 63 ∉ t → t.length + 13 < MAXLINE →
      ∃ uri name, parse_uri uri = .dynamic name [] ∧
        ∀ dirs, walk dirs (components name) = walk dirs (components t) := by
  refine ⟨fun uri name h => ⟨walk_stays (static_inner h), fun hlast => walk_stays fun hin => ?_⟩,
    fun t ht hlen => ⟨_, _, parse_uri_program ht hlen, fun dirs => ?_⟩⟩
  · obtain ⟨f, fs, hf⟩ := components_cases name
    have hne : components name ≠ [] := by rw [hf]; exact List.cons_ne_nil _ _
    rw [← List.dropLast_append_getLast hne, List.mem_append, List.mem_singleton] at hin
    rcases hin with hin | hin
    · exact static_inner h hin
    · exact hlast (by rw [List.getLast?_eq_some_getLast hne, ← hin])
  · have hcomp : components (str "./cgi-bin/../" ++ t) =
        [dot, str "cgi-bin", dotdot] ++ components t :=
      (components_append (str "./cgi-bin/..") t).trans rfl
    rw [hcomp, walk_append]
    rfl

end Labs.Tiny
