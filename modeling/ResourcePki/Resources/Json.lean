import ResourcePki.Resources.Text
import ResourcePki.Json.Form

/-! The JSON form of resource sets: the texts of the three families. -/

namespace ResourcePki

instance : JsonForm ResourceSet where
  toJson r := .obj [("asn", .str (r.text .asn)), ("ipv4", .str (r.text .ipv4)),
    ("ipv6", .str (r.text .ipv6))]
  ofJson? j := do
    let [asn, ipv4, ipv6] ← j.slots [["asn"], ["ipv4", "v4"], ["ipv6", "v6"]] | none
    (ResourceSet.ofTexts (← Json.required asn) (← Json.required ipv4)
      (← Json.required ipv6)).toOption

end ResourcePki
