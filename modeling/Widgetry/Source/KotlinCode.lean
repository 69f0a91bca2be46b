import Widgetry.Source.Code
import Widgetry.Style.Basic

/-!
# Kotlin expressions

Kotlin spellings, and the text of the helpers that Kotlin code calls.
-/

namespace Widgetry.Source.Kotlin

def escape (c : Char) : String :=
  match c with
  | '\\' => "\\\\"
  | '"' => "\\\""
  | '$' => "\\$"
  | '\n' => "\\n"
  | '\r' => "\\r"
  | '\t' => "\\t"
  | c => String.singleton c

def quote (s : String) : String := "\"" ++ String.join (s.toList.map escape) ++ "\""

def color (c : Color) : String := "Color(0x" ++ Text.hexUpper 8 c.argb ++ ")"

def choose (branches : List (String × String)) (fallback : String) : String :=
  parens (String.join (branches.map fun b => "if (" ++ b.1 ++ ") " ++ b.2 ++ " else ") ++ fallback)

def select (input : String) (branches : List (String × String)) (fallback : String) : String :=
  "(when (" ++ input ++ ") \x7b " ++ String.join (branches.map fun b => b.1 ++ " -> " ++ b.2 ++ "; ")
    ++ "else -> " ++ fallback ++ " \x7d)"

def needs : Helper → List Helper
  | .asText => [.str]
  | .asFlag => [.truthy]
  | .asColor => [.parseColor]
  | .formatDate => [.str]
  | _ => []

def language : Language where
  quote := quote
  color := color
  colorUses := []
  nothing := "null"
  orElse := "?:"
  clear := "Color(0x00000000)"
  upper := "uppercase"
  lower := "lowercase"
  remainder := fun a b => chain "%" [a, b]
  choose := choose
  select := select
  needs := needs

/-! ### Helpers -/

def parseColorHead : List String :=
  ["private fun parseColor(s: String): Color? \x7b",
   "    val t = s.trim()",
   "    if (t.startsWith(\"#\")) \x7b",
   "        val hex = t.substring(1)",
   "        if (!hex.all \x7b it in '0'..'9' || it.lowercaseChar() in 'a'..'f' \x7d) return null",
   "        val n = hex.toLongOrNull(16) ?: return null",
   "        return when (hex.length) \x7b",
   "            3 -> Color(",
   "                0xFF000000 or (((n shr 8) and 0xF) * 0x110000) or",
   "                    (((n shr 4) and 0xF) * 0x1100) or ((n and 0xF) * 0x11)",
   "            )",
   "            6 -> Color(0xFF000000 or n)",
   "            8 -> Color(((n and 0xFF) shl 24) or (n shr 8))",
   "            else -> null",
   "        \x7d",
   "    \x7d",
   "    return when (t.lowercase()) \x7b"]

def parseColor : List String :=
  parseColorHead ++ Color.named.map (fun entry => "        " ++ quote entry.1 ++ " -> " ++ color entry.2) ++
    ["        else -> null", "    \x7d", "\x7d"]

def fontWeight (style : Style) : List String :=
  let constant := fun w => (style.fontWeight? .glance w).getD ""
  ["private fun fontWeight(v: Any?): FontWeight =",
   "    when (if (v == true) \"bold\" else v.toString().lowercase()) \x7b",
   "        \"bold\" -> " ++ constant .bold,
   "        \"medium\" -> " ++ constant .medium,
   "        else -> " ++ constant .normal,
   "    \x7d"]

def helper (style : Style) : Helper → List String
  | .lookup =>
      ["private fun lookup(root: Any?, vararg path: Any): Any? \x7b",
       "    var cur: Any? = root",
       "    for (step in path) \x7b",
       "        cur = when \x7b",
       "            step is String && cur is Map<*, *> -> cur[step]",
       "            step is Int && cur is List<*> -> cur.getOrNull(step)",
       "            else -> return null",
       "        \x7d",
       "    \x7d",
       "    return cur",
       "\x7d"]
  | .items =>
      ["private fun items(v: Any?): List<Any?> = (v as? List<*>)?.toList() ?: emptyList()"]
  | .str =>
      ["private fun str(v: Any?): String = when (v) \x7b",
       "    null -> \"\"",
       "    is Double -> when \x7b",
       "        v.isNaN() -> \"NaN\"",
       "        v.isInfinite() -> if (v > 0) \"inf\" else \"-inf\"",
       "        v == 0.0 -> \"0\"",
       "        v % 1.0 == 0.0 && abs(v) < 1e15 -> v.toLong().toString()",
       "        else -> BigDecimal.valueOf(v).stripTrailingZeros().toPlainString()",
       "    \x7d",
       "    is Float -> str(v.toDouble())",
       "    is Color -> \x7b",
       "        val argb = v.toArgb()",
       "        val rgb = String.format(Locale.US, \"%06X\", argb and 0xFFFFFF)",
       "        val alpha = (argb ushr 24) and 0xFF",
       "        if (alpha == 0xFF) \"#$rgb\" else \"#$rgb\" + String.format(Locale.US, \"%02X\", alpha)",
       "    \x7d",
       "    else -> v.toString()",
       "\x7d"]
  | .asNumber =>
      ["private fun asNumber(v: Any?): Double? = when (v) \x7b",
       "    is Number -> v.toDouble()",
       "    is String -> v.trim().toDoubleOrNull()",
       "    else -> null",
       "\x7d"]
  | .asText =>
      ["private fun asText(v: Any?): String? = v?.let \x7b str(it) \x7d"]
  | .asFlag =>
      ["private fun asFlag(v: Any?): Boolean? = v?.let \x7b truthy(it) \x7d"]
  | .truthy =>
      ["private fun truthy(v: Any?): Boolean = when (v) \x7b",
       "    null -> false",
       "    is Boolean -> v",
       "    is Number -> v.toDouble().let \x7b it != 0.0 && !it.isNaN() \x7d",
       "    is String -> v.isNotEmpty()",
       "    else -> true",
       "\x7d"]
  | .same =>
      ["private fun same(a: Any?, b: Any?): Boolean =",
       "    if (a is Number && b is Number) a.toDouble() == b.toDouble() else a == b"]
  | .present =>
      ["private fun present(v: Any?): Boolean = v != null && v != \"\""]
  | .colorHex => []
  | .parseColor => parseColor
  | .asColor =>
      ["private fun asColor(v: Any?): Color? = when (v) \x7b",
       "    is Color -> v",
       "    is String -> parseColor(v)",
       "    else -> null",
       "\x7d"]
  | .formatNumber =>
      ["private fun formatNumber(value: Double, unit: String, decimals: Double): String \x7b",
       "    val d = decimals.toInt().coerceIn(0, 6)",
       "    val f = 10.0.pow(d)",
       "    var r = sign(value) * floor(abs(value) * f + 0.5) / f",
       "    if (r == 0.0) r = 0.0",
       "    return String.format(Locale.US, \"%.$\x7bd\x7df\", r) + unit",
       "\x7d"]
  | .substr =>
      ["private fun substr(s: String, start: Double, length: Double?): String \x7b",
       "    val cps = s.codePoints().toArray()",
       "    val from = start.toLong().coerceIn(0L, cps.size.toLong())",
       "    val rest = cps.size.toLong() - from",
       "    val taken = if (length == null) rest else length.toLong().coerceIn(0L, rest)",
       "    return String(cps, from.toInt(), taken.toInt())",
       "\x7d"]
  | .formatDate =>
      ["private fun formatDate(v: Any?, pattern: String): String \x7b",
       "    val instant = when (v) \x7b",
       "        is Number -> v.toDouble().takeIf \x7b it.isFinite() && abs(it) <= 8.64e15 \x7d",
       "            ?.let \x7b Instant.ofEpochMilli(it.toLong()) \x7d",
       "        is String -> runCatching \x7b OffsetDateTime.parse(v).toInstant() \x7d.getOrNull()",
       "        else -> null",
       "    \x7d ?: return str(v)",
       "    return DateTimeFormatter.ofPattern(pattern, Locale.US).withZone(ZoneOffset.UTC).format(instant)",
       "\x7d"]
  | .rgba =>
      ["private fun rgba(r: Double, g: Double, b: Double, a: Double): Color \x7b",
       "    fun ch(x: Double) = x.coerceIn(0.0, 255.0).roundToInt()",
       "    return Color(ch(r), ch(g), ch(b), (a.coerceIn(0.0, 1.0) * 255.0).roundToInt())",
       "\x7d"]
  | .mixColor =>
      ["private fun mixColor(from: Color, to: Color, t: Double): Color \x7b",
       "    val k = t.coerceIn(0.0, 1.0)",
       "    val a = from.toArgb()",
       "    val b = to.toArgb()",
       "    fun ch(shift: Int): Int \x7b",
       "        val x = (a ushr shift) and 0xFF",
       "        val y = (b ushr shift) and 0xFF",
       "        return (x + (y - x) * k).roundToInt()",
       "    \x7d",
       "    return Color(ch(16), ch(8), ch(0), ch(24))",
       "\x7d"]
  | .fontWeight => fontWeight style

def imports : Helper → List String
  | .str =>
      ["androidx.compose.ui.graphics.toArgb", "java.math.BigDecimal", "java.util.Locale",
       "kotlin.math.abs"]
  | .formatNumber =>
      ["java.util.Locale", "kotlin.math.abs", "kotlin.math.floor", "kotlin.math.pow",
       "kotlin.math.sign"]
  | .formatDate =>
      ["java.time.Instant", "java.time.OffsetDateTime", "java.time.ZoneOffset",
       "java.time.format.DateTimeFormatter", "java.util.Locale", "kotlin.math.abs"]
  | .rgba => ["kotlin.math.roundToInt"]
  | .mixColor => ["androidx.compose.ui.graphics.toArgb", "kotlin.math.roundToInt"]
  | _ => []

end Widgetry.Source.Kotlin
