import Widgetry.Source.Code
import Widgetry.Style.Basic

/-!
# Swift expressions

Swift spellings, and the text of the helpers that Swift code calls.
-/

namespace Widgetry.Source.Swift

def escape (c : Char) : String :=
  match c with
  | '\\' => "\\\\"
  | '"' => "\\\""
  | '\n' => "\\n"
  | '\r' => "\\r"
  | '\t' => "\\t"
  | c => String.singleton c

def quote (s : String) : String := "\"" ++ String.join (s.toList.map escape) ++ "\""

def color (c : Color) : String := "colorHex(0x" ++ Text.hexUpper 8 c.argb ++ ")"

/-- Conditions with their branches, each one inside the one before. -/
def nest (branches : List (String × String)) (fallback : String) : String :=
  String.join (branches.map fun b => "(" ++ b.1 ++ " ? " ++ b.2 ++ " : ") ++ fallback
    ++ String.join (branches.map fun _ => ")")

def select (input : String) (branches : List (String × String)) (fallback : String) : String :=
  nest (branches.map fun b => (group input ++ " == " ++ b.1, b.2)) fallback

def needs : Helper → List Helper
  | .asText => [.str]
  | .fontWeight => [.str]
  | .asFlag => [.truthy]
  | .parseColor => [.colorHex]
  | .asColor => [.parseColor, .colorHex]
  | .same => [.asNumber]
  | .formatDate => [.str]
  | _ => []

def language : Language where
  quote := quote
  color := color
  colorUses := [.colorHex]
  nothing := "nil"
  orElse := "??"
  clear := "Color.clear"
  upper := "uppercased"
  lower := "lowercased"
  remainder := fun a b => group a ++ ".truncatingRemainder(dividingBy: " ++ b ++ ")"
  choose := nest
  select := select
  needs := needs

/-! ### Helpers -/

def parseColorHead : List String :=
  ["fileprivate func parseColor(_ s: String) -> Color? \x7b",
   "    let t = s.trimmingCharacters(in: .whitespaces)",
   "    if t.hasPrefix(\"#\") \x7b",
   "        let hex = String(t.dropFirst())",
   "        guard hex.allSatisfy(\\.isHexDigit), let n = UInt32(hex, radix: 16) else \x7b return nil \x7d",
   "        switch hex.count \x7b",
   "        case 3:",
   "            let r = ((n >> 8) & 0xF) * 0x11_0000",
   "            let g = ((n >> 4) & 0xF) * 0x1100",
   "            return colorHex(0xFF00_0000 | r | g | (n & 0xF) * 0x11)",
   "        case 6: return colorHex(0xFF00_0000 | n)",
   "        case 8: return colorHex(((n & 0xFF) << 24) | (n >> 8))",
   "        default: return nil",
   "        \x7d",
   "    \x7d",
   "    switch t.lowercased() \x7b"]

def parseColor : List String :=
  parseColorHead ++ Color.named.map (fun entry => "    case " ++ quote entry.1 ++ ": return " ++ color entry.2) ++
    ["    default: return nil", "    \x7d", "\x7d"]

def fontWeight (style : Style) : List String :=
  let constant := fun w => (style.fontWeight? .swiftUI w).getD ""
  ["fileprivate func fontWeight(_ v: Any?) -> Font.Weight \x7b",
   "    switch (v as? Bool) == true ? \"bold\" : str(v).lowercased() \x7b",
   "    case \"bold\": return " ++ constant .bold,
   "    case \"medium\": return " ++ constant .medium,
   "    default: return " ++ constant .normal,
   "    \x7d",
   "\x7d"]

def helper (style : Style) : Helper → List String
  | .lookup =>
      ["fileprivate func lookup(_ root: Any?, _ path: Any...) -> Any? \x7b",
       "    var cur: Any? = root",
       "    for step in path \x7b",
       "        if let key = step as? String, let map = cur as? [String: Any] \x7b",
       "            cur = map[key]",
       "        \x7d else if let i = step as? Int, let list = cur as? [Any], list.indices.contains(i) \x7b",
       "            cur = list[i]",
       "        \x7d else \x7b",
       "            return nil",
       "        \x7d",
       "    \x7d",
       "    return cur",
       "\x7d"]
  | .items =>
      ["fileprivate func items(_ v: Any?) -> [Any] \x7b (v as? [Any]) ?? [] \x7d"]
  | .str =>
      ["fileprivate func str(_ v: Any?) -> String \x7b",
       "    guard let v else \x7b return \"\" \x7d",
       "    switch v \x7b",
       "    case let b as Bool: return b ? \"true\" : \"false\"",
       "    case let d as Double:",
       "        if d.isNaN \x7b return \"NaN\" \x7d",
       "        if d.isInfinite \x7b return d < 0 ? \"-inf\" : \"inf\" \x7d",
       "        if d == 0 \x7b return \"0\" \x7d",
       "        if d.rounded() == d && abs(d) < 1e15 \x7b return String(Int64(d)) \x7d",
       "        return NSDecimalNumber(string: String(d)).stringValue",
       "    case let i as Int: return String(i)",
       "    case let s as String: return s",
       "    default: return \"\\(v)\"",
       "    \x7d",
       "\x7d"]
  | .asNumber =>
      ["fileprivate func asNumber(_ v: Any?) -> Double? \x7b",
       "    if v is Bool \x7b return nil \x7d",
       "    if let d = v as? Double \x7b return d \x7d",
       "    if let i = v as? Int \x7b return Double(i) \x7d",
       "    if let s = v as? String \x7b return Double(s.trimmingCharacters(in: .whitespaces)) \x7d",
       "    return nil",
       "\x7d"]
  | .asText =>
      ["fileprivate func asText(_ v: Any?) -> String? \x7b",
       "    guard let v, !(v is NSNull) else \x7b return nil \x7d",
       "    return str(v)",
       "\x7d"]
  | .asFlag =>
      ["fileprivate func asFlag(_ v: Any?) -> Bool? \x7b",
       "    guard let v, !(v is NSNull) else \x7b return nil \x7d",
       "    return truthy(v)",
       "\x7d"]
  | .truthy =>
      ["fileprivate func truthy(_ v: Any?) -> Bool \x7b",
       "    guard let v else \x7b return false \x7d",
       "    switch v \x7b",
       "    case let b as Bool: return b",
       "    case let d as Double: return d != 0 && !d.isNaN",
       "    case let i as Int: return i != 0",
       "    case let s as String: return !s.isEmpty",
       "    case is NSNull: return false",
       "    default: return true",
       "    \x7d",
       "\x7d"]
  | .same =>
      ["fileprivate func same(_ a: Any?, _ b: Any?) -> Bool \x7b",
       "    if !(a is String), !(b is String), let x = asNumber(a), let y = asNumber(b) \x7b return x == y \x7d",
       "    switch (a, b) \x7b",
       "    case (nil, nil): return true",
       "    case let (x as String, y as String): return x == y",
       "    case let (x as Bool, y as Bool): return x == y",
       "    default: return false",
       "    \x7d",
       "\x7d"]
  | .present =>
      ["fileprivate func present(_ v: Any?) -> Bool \x7b",
       "    guard let v, !(v is NSNull) else \x7b return false \x7d",
       "    if let s = v as? String \x7b return !s.isEmpty \x7d",
       "    return true",
       "\x7d"]
  | .colorHex =>
      ["fileprivate func colorHex(_ argb: UInt32) -> Color \x7b",
       "    Color(",
       "        .sRGB,",
       "        red: Double((argb >> 16) & 0xFF) / 255.0,",
       "        green: Double((argb >> 8) & 0xFF) / 255.0,",
       "        blue: Double(argb & 0xFF) / 255.0,",
       "        opacity: Double((argb >> 24) & 0xFF) / 255.0",
       "    )",
       "\x7d"]
  | .parseColor => parseColor
  | .asColor =>
      ["fileprivate func asColor(_ v: Any?) -> Color? \x7b",
       "    if let c = v as? Color \x7b return c \x7d",
       "    if let s = v as? String \x7b return parseColor(s) \x7d",
       "    return nil",
       "\x7d"]
  | .formatNumber =>
      ["fileprivate func formatNumber(_ value: Double, _ unit: String, _ decimals: Double) -> String \x7b",
       "    let d = max(0, min(6, Int(decimals)))",
       "    let f = pow(10.0, Double(d))",
       "    var r = (abs(value) * f + 0.5).rounded(.down) / f * (value < 0 ? -1 : 1)",
       "    if r == 0 \x7b r = 0 \x7d",
       "    return String(format: \"%.\\(d)f\", locale: Locale(identifier: \"en_US_POSIX\"), r) + unit",
       "\x7d"]
  | .substr =>
      ["fileprivate func substr(_ s: String, _ start: Double, _ length: Double?) -> String \x7b",
       "    let scalars = Array(s.unicodeScalars)",
       "    let count = Double(scalars.count)",
       "    let from = start.isNaN ? 0 : Int(min(max(start.rounded(.towardZero), 0), count))",
       "    var to = scalars.count",
       "    if let length \x7b",
       "        let n = length.isNaN ? 0 : max(length.rounded(.towardZero), 0)",
       "        to = Int(min(Double(from) + n, count))",
       "    \x7d",
       "    var out = String.UnicodeScalarView()",
       "    out.append(contentsOf: scalars[from..<to])",
       "    return String(out)",
       "\x7d"]
  | .formatDate =>
      ["fileprivate func formatDate(_ v: Any?, _ pattern: String) -> String \x7b",
       "    var date: Date?",
       "    if v is Bool \x7b",
       "        date = nil",
       "    \x7d else if let ms = v as? Double \x7b",
       "        if ms.isFinite && abs(ms) <= 8.64e15 \x7b",
       "            date = Date(timeIntervalSince1970: ms.rounded(.towardZero) / 1000)",
       "        \x7d",
       "    \x7d else if let ms = v as? Int \x7b",
       "        date = Date(timeIntervalSince1970: Double(ms) / 1000)",
       "    \x7d else if let s = v as? String \x7b",
       "        let iso = ISO8601DateFormatter()",
       "        date = iso.date(from: s)",
       "        if date == nil \x7b",
       "            iso.formatOptions.insert(.withFractionalSeconds)",
       "            date = iso.date(from: s)",
       "        \x7d",
       "    \x7d",
       "    guard let date else \x7b return str(v) \x7d",
       "    let f = DateFormatter()",
       "    f.locale = Locale(identifier: \"en_US_POSIX\")",
       "    f.timeZone = TimeZone(identifier: \"UTC\")",
       "    f.dateFormat = pattern",
       "    return f.string(from: date)",
       "\x7d"]
  | .rgba =>
      ["fileprivate func rgba(_ r: Double, _ g: Double, _ b: Double, _ a: Double) -> Color \x7b",
       "    func ch(_ x: Double) -> Double \x7b min(255, max(0, x)).rounded() / 255.0 \x7d",
       "    let alpha = (min(1, max(0, a)) * 255).rounded() / 255.0",
       "    return Color(.sRGB, red: ch(r), green: ch(g), blue: ch(b), opacity: alpha)",
       "\x7d"]
  | .mixColor =>
      ["fileprivate func mixColor(_ from: Color, _ to: Color, _ t: Double) -> Color \x7b",
       "    let k = min(1, max(0, t))",
       "    let a = from.resolve(in: EnvironmentValues())",
       "    let b = to.resolve(in: EnvironmentValues())",
       "    func ch(_ x: Float, _ y: Float) -> Double \x7b",
       "        let x = (Double(x) * 255).rounded()",
       "        let y = (Double(y) * 255).rounded()",
       "        return (x + (y - x) * k).rounded() / 255.0",
       "    \x7d",
       "    return Color(",
       "        .sRGB,",
       "        red: ch(a.red, b.red),",
       "        green: ch(a.green, b.green),",
       "        blue: ch(a.blue, b.blue),",
       "        opacity: ch(a.opacity, b.opacity)",
       "    )",
       "\x7d"]
  | .fontWeight => fontWeight style

end Widgetry.Source.Swift
