/-!
# The vector library of generated C++

The text that every generated C++ unit starts with: vectors, matrices and the
mathematical functions on them.
-/

namespace ShaderForge.Cpp

def preambleLines : List String := [
  "#include <array>",
  "#include <cmath>",
  "#include <cstdint>",
  "",
  "namespace tsl \x7b",
  "",
  "template <typename T, int N>",
  "struct vector \x7b",
  "    T data[N];",
  "",
  "    vector() : data\x7b\x7d \x7b\x7d",
  "",
  "    template <typename... A>",
  "    vector(const A &...parts) : data\x7b\x7d \x7b",
  "        int at = 0;",
  "        (fill(at, parts), ...);",
  "        if (sizeof...(A) == 1 && at == 1) \x7b",
  "            for (int i = 1; i < N; ++i) \x7b",
  "                data[i] = data[0];",
  "            \x7d",
  "        \x7d",
  "    \x7d",
  "",
  "    T &operator[](int i) \x7b return data[i]; \x7d",
  "    const T &operator[](int i) const \x7b return data[i]; \x7d",
  "",
  "#define TSL_BINARY(op)                                                   \\",
  "    friend vector operator op(const vector &a, const vector &b) \x7b        \\",
  "        vector r;                                                        \\",
  "        for (int i = 0; i < N; ++i) \x7b                                    \\",
  "            r[i] = a[i] op b[i];                                         \\",
  "        \x7d                                                                \\",
  "        return r;                                                        \\",
  "    \x7d",
  "    TSL_BINARY(+)",
  "    TSL_BINARY(-)",
  "    TSL_BINARY(*)",
  "    TSL_BINARY(/)",
  "    TSL_BINARY(%)",
  "    TSL_BINARY(&)",
  "    TSL_BINARY(|)",
  "    TSL_BINARY(^)",
  "    TSL_BINARY(<<)",
  "    TSL_BINARY(>>)",
  "#undef TSL_BINARY",
  "",
  "    friend vector operator-(const vector &a) \x7b",
  "        vector r;",
  "        for (int i = 0; i < N; ++i) \x7b",
  "            r[i] = -a[i];",
  "        \x7d",
  "        return r;",
  "    \x7d",
  "",
  "    friend vector operator~(const vector &a) \x7b",
  "        vector r;",
  "        for (int i = 0; i < N; ++i) \x7b",
  "            r[i] = ~a[i];",
  "        \x7d",
  "        return r;",
  "    \x7d",
  "",
  "    friend bool operator==(const vector &a, const vector &b) \x7b",
  "        for (int i = 0; i < N; ++i) \x7b",
  "            if (a[i] != b[i]) \x7b",
  "                return false;",
  "            \x7d",
  "        \x7d",
  "        return true;",
  "    \x7d",
  "",
  "    friend bool operator!=(const vector &a, const vector &b) \x7b return !(a == b); \x7d",
  "",
  "private:",
  "    template <typename U>",
  "    void fill(int &at, const U &scalar) \x7b",
  "        if (at < N) \x7b",
  "            data[at++] = T(scalar);",
  "        \x7d",
  "    \x7d",
  "",
  "    template <typename U, int M>",
  "    void fill(int &at, const vector<U, M> &v) \x7b",
  "        for (int i = 0; i < M && at < N; ++i) \x7b",
  "            data[at++] = T(v[i]);",
  "        \x7d",
  "    \x7d",
  "\x7d;",
  "",
  "/// Component selection that can be assigned through.",
  "template <typename T, int N, int M>",
  "struct lanes \x7b",
  "    vector<T, N> &v;",
  "    int at[M];",
  "",
  "    operator vector<T, M>() const \x7b",
  "        vector<T, M> r;",
  "        for (int i = 0; i < M; ++i) \x7b",
  "            r[i] = v[at[i]];",
  "        \x7d",
  "        return r;",
  "    \x7d",
  "",
  "    lanes &operator=(const vector<T, M> &x) \x7b",
  "        for (int i = 0; i < M; ++i) \x7b",
  "            v[at[i]] = x[i];",
  "        \x7d",
  "        return *this;",
  "    \x7d",
  "\x7d;",
  "",
  "template <int M, typename T, int N, typename... I>",
  "vector<T, M> swizzle(const vector<T, N> &v, I... at) \x7b",
  "    const int index[M] = \x7bat...\x7d;",
  "    vector<T, M> r;",
  "    for (int i = 0; i < M; ++i) \x7b",
  "        r[i] = v[index[i]];",
  "    \x7d",
  "    return r;",
  "\x7d",
  "",
  "template <int M, typename T, int N, typename... I>",
  "lanes<T, N, M> select(vector<T, N> &v, I... at) \x7b",
  "    return \x7bv, \x7bat...\x7d\x7d;",
  "\x7d",
  "",
  "template <int N>",
  "struct matrix \x7b",
  "    vector<float, N> cols[N];",
  "",
  "    matrix() : cols\x7b\x7d \x7b\x7d",
  "",
  "    template <typename... A>",
  "    matrix(const A &...parts) : cols\x7b\x7d \x7b",
  "        vector<float, N * N> flat(parts...);",
  "        if (sizeof...(A) == 1 && is_scalar(parts...)) \x7b",
  "            for (int i = 0; i < N; ++i) \x7b",
  "                cols[i][i] = flat[0];",
  "            \x7d",
  "            return;",
  "        \x7d",
  "        for (int c = 0; c < N; ++c) \x7b",
  "            for (int r = 0; r < N; ++r) \x7b",
  "                cols[c][r] = flat[c * N + r];",
  "            \x7d",
  "        \x7d",
  "    \x7d",
  "",
  "    vector<float, N> &operator[](int i) \x7b return cols[i]; \x7d",
  "    const vector<float, N> &operator[](int i) const \x7b return cols[i]; \x7d",
  "",
  "    friend matrix operator+(const matrix &a, const matrix &b) \x7b",
  "        matrix r;",
  "        for (int c = 0; c < N; ++c) \x7b",
  "            r[c] = a[c] + b[c];",
  "        \x7d",
  "        return r;",
  "    \x7d",
  "",
  "    friend matrix operator-(const matrix &a, const matrix &b) \x7b",
  "        matrix r;",
  "        for (int c = 0; c < N; ++c) \x7b",
  "            r[c] = a[c] - b[c];",
  "        \x7d",
  "        return r;",
  "    \x7d",
  "",
  "    friend matrix operator*(const matrix &a, float s) \x7b",
  "        matrix r;",
  "        for (int c = 0; c < N; ++c) \x7b",
  "            r[c] = a[c] * vector<float, N>(s);",
  "        \x7d",
  "        return r;",
  "    \x7d",
  "",
  "    friend vector<float, N> operator*(const matrix &m, const vector<float, N> &v) \x7b",
  "        vector<float, N> r;",
  "        for (int c = 0; c < N; ++c) \x7b",
  "            r = r + m[c] * vector<float, N>(v[c]);",
  "        \x7d",
  "        return r;",
  "    \x7d",
  "",
  "    friend vector<float, N> operator*(const vector<float, N> &v, const matrix &m) \x7b",
  "        vector<float, N> r;",
  "        for (int c = 0; c < N; ++c) \x7b",
  "            float sum = 0.0f;",
  "            for (int k = 0; k < N; ++k) \x7b",
  "                sum += v[k] * m[c][k];",
  "            \x7d",
  "            r[c] = sum;",
  "        \x7d",
  "        return r;",
  "    \x7d",
  "",
  "    friend matrix operator*(const matrix &a, const matrix &b) \x7b",
  "        matrix r;",
  "        for (int c = 0; c < N; ++c) \x7b",
  "            r[c] = a * b[c];",
  "        \x7d",
  "        return r;",
  "    \x7d",
  "",
  "private:",
  "    template <typename U>",
  "    static constexpr bool is_scalar(const U &) \x7b",
  "        return true;",
  "    \x7d",
  "",
  "    template <typename U, int M>",
  "    static constexpr bool is_scalar(const vector<U, M> &) \x7b",
  "        return false;",
  "    \x7d",
  "\x7d;",
  "",
  "using vec2 = vector<float, 2>;",
  "using vec3 = vector<float, 3>;",
  "using vec4 = vector<float, 4>;",
  "using ivec2 = vector<int32_t, 2>;",
  "using ivec3 = vector<int32_t, 3>;",
  "using ivec4 = vector<int32_t, 4>;",
  "using uvec2 = vector<uint32_t, 2>;",
  "using uvec3 = vector<uint32_t, 3>;",
  "using uvec4 = vector<uint32_t, 4>;",
  "using mat2 = matrix<2>;",
  "using mat3 = matrix<3>;",
  "using mat4 = matrix<4>;",
  "",
  "#define TSL_MAP1(name, expr)                                             \\",
  "    inline float name(float x) \x7b return expr; \x7d                         \\",
  "    inline double name(double x) \x7b return expr; \x7d                       \\",
  "    template <typename T, int N>                                         \\",
  "    vector<T, N> name(const vector<T, N> &v) \x7b                           \\",
  "        vector<T, N> r;                                                  \\",
  "        for (int i = 0; i < N; ++i) \x7b                                    \\",
  "            r[i] = name(v[i]);                                           \\",
  "        \x7d                                                                \\",
  "        return r;                                                        \\",
  "    \x7d",
  "",
  "#define TSL_MAP2(name, expr)                                             \\",
  "    inline float name(float x, float y) \x7b return expr; \x7d                \\",
  "    inline double name(double x, double y) \x7b return expr; \x7d             \\",
  "    template <typename T, int N>                                         \\",
  "    vector<T, N> name(const vector<T, N> &a, const vector<T, N> &b) \x7b    \\",
  "        vector<T, N> r;                                                  \\",
  "        for (int i = 0; i < N; ++i) \x7b                                    \\",
  "            r[i] = name(a[i], b[i]);                                     \\",
  "        \x7d                                                                \\",
  "        return r;                                                        \\",
  "    \x7d                                                                    \\",
  "    template <typename T, int N>                                         \\",
  "    vector<T, N> name(const vector<T, N> &a, T b) \x7b                      \\",
  "        return name(a, vector<T, N>(b));                                 \\",
  "    \x7d",
  "",
  "inline int32_t abs(int32_t x) \x7b return x < 0 ? -x : x; \x7d",
  "inline int32_t sign(int32_t x) \x7b return (x > 0) - (x < 0); \x7d",
  "inline int32_t min(int32_t x, int32_t y) \x7b return x < y ? x : y; \x7d",
  "inline uint32_t min(uint32_t x, uint32_t y) \x7b return x < y ? x : y; \x7d",
  "inline int32_t max(int32_t x, int32_t y) \x7b return x > y ? x : y; \x7d",
  "inline uint32_t max(uint32_t x, uint32_t y) \x7b return x > y ? x : y; \x7d",
  "",
  "TSL_MAP1(abs, std::fabs(x))",
  "TSL_MAP1(sign, (x > 0) - (x < 0))",
  "TSL_MAP1(floor, std::floor(x))",
  "TSL_MAP1(ceil, std::ceil(x))",
  "TSL_MAP1(fract, x - std::floor(x))",
  "TSL_MAP1(sqrt, std::sqrt(x))",
  "TSL_MAP1(inversesqrt, 1 / std::sqrt(x))",
  "TSL_MAP1(exp, std::exp(x))",
  "TSL_MAP1(log, std::log(x))",
  "TSL_MAP1(exp2, std::exp2(x))",
  "TSL_MAP1(log2, std::log2(x))",
  "TSL_MAP1(sin, std::sin(x))",
  "TSL_MAP1(cos, std::cos(x))",
  "TSL_MAP1(tan, std::tan(x))",
  "TSL_MAP1(asin, std::asin(x))",
  "TSL_MAP1(acos, std::acos(x))",
  "TSL_MAP1(atan, std::atan(x))",
  "TSL_MAP2(pow, std::pow(x, y))",
  "TSL_MAP2(min, x < y ? x : y)",
  "TSL_MAP2(max, x > y ? x : y)",
  "TSL_MAP2(mod, x - y * std::floor(x / y))",
  "TSL_MAP2(step, x > y ? 0 : 1)",
  "",
  "#undef TSL_MAP1",
  "#undef TSL_MAP2",
  "",
  "template <typename T, typename L>",
  "T clamp(const T &x, const L &lo, const L &hi) \x7b",
  "    return min(max(x, lo), hi);",
  "\x7d",
  "",
  "template <typename T, typename A>",
  "T mix(const T &x, const T &y, const A &a) \x7b",
  "    return x + (y - x) * a;",
  "\x7d",
  "",
  "template <typename E, typename T>",
  "T smoothstep(const E &lo, const E &hi, const T &x) \x7b",
  "    T t = clamp((x - lo) / (hi - lo), E(0), E(1));",
  "    return t * t * (T(3) - T(2) * t);",
  "\x7d",
  "",
  "template <typename T, int N>",
  "T dot(const vector<T, N> &a, const vector<T, N> &b) \x7b",
  "    T sum = 0;",
  "    for (int i = 0; i < N; ++i) \x7b",
  "        sum += a[i] * b[i];",
  "    \x7d",
  "    return sum;",
  "\x7d",
  "",
  "inline float dot(float a, float b) \x7b return a * b; \x7d",
  "",
  "inline vec3 cross(const vec3 &a, const vec3 &b) \x7b",
  "    return vec3(a[1] * b[2] - a[2] * b[1], a[2] * b[0] - a[0] * b[2], a[0] * b[1] - a[1] * b[0]);",
  "\x7d",
  "",
  "template <typename T>",
  "float length(const T &v) \x7b",
  "    return std::sqrt(dot(v, v));",
  "\x7d",
  "",
  "template <typename T>",
  "float distance(const T &a, const T &b) \x7b",
  "    return length(a - b);",
  "\x7d",
  "",
  "template <typename T>",
  "T normalize(const T &v) \x7b",
  "    return v / T(length(v));",
  "\x7d",
  "",
  "template <typename T>",
  "T reflect(const T &i, const T &n) \x7b",
  "    return i - n * T(2 * dot(n, i));",
  "\x7d",
  "",
  "template <int N>",
  "matrix<N> transpose(const matrix<N> &m) \x7b",
  "    matrix<N> r;",
  "    for (int c = 0; c < N; ++c) \x7b",
  "        for (int k = 0; k < N; ++k) \x7b",
  "            r[c][k] = m[k][c];",
  "        \x7d",
  "    \x7d",
  "    return r;",
  "\x7d",
  "",
  "template <int N>",
  "float determinant(matrix<N> m) \x7b",
  "    float det = 1.0f;",
  "    for (int c = 0; c < N; ++c) \x7b",
  "        int pivot = c;",
  "        for (int r = c + 1; r < N; ++r) \x7b",
  "            if (std::fabs(m[r][c]) > std::fabs(m[pivot][c])) \x7b",
  "                pivot = r;",
  "            \x7d",
  "        \x7d",
  "        if (m[pivot][c] == 0.0f) \x7b",
  "            return 0.0f;",
  "        \x7d",
  "        if (pivot != c) \x7b",
  "            auto row = m[pivot];",
  "            m[pivot] = m[c];",
  "            m[c] = row;",
  "            det = -det;",
  "        \x7d",
  "        det *= m[c][c];",
  "        for (int r = c + 1; r < N; ++r) \x7b",
  "            float f = m[r][c] / m[c][c];",
  "            m[r] = m[r] - m[c] * vector<float, N>(f);",
  "        \x7d",
  "    \x7d",
  "    return det;",
  "\x7d",
  "",
  "template <int N>",
  "matrix<N> inverse(matrix<N> m) \x7b",
  "    matrix<N> r(1.0f);",
  "    for (int c = 0; c < N; ++c) \x7b",
  "        int pivot = c;",
  "        for (int k = c + 1; k < N; ++k) \x7b",
  "            if (std::fabs(m[k][c]) > std::fabs(m[pivot][c])) \x7b",
  "                pivot = k;",
  "            \x7d",
  "        \x7d",
  "        auto row = m[pivot];",
  "        m[pivot] = m[c];",
  "        m[c] = row;",
  "        row = r[pivot];",
  "        r[pivot] = r[c];",
  "        r[c] = row;",
  "        vector<float, N> scale(1.0f / m[c][c]);",
  "        m[c] = m[c] * scale;",
  "        r[c] = r[c] * scale;",
  "        for (int k = 0; k < N; ++k) \x7b",
  "            if (k != c) \x7b",
  "                vector<float, N> f(m[k][c]);",
  "                m[k] = m[k] - m[c] * f;",
  "                r[k] = r[k] - r[c] * f;",
  "            \x7d",
  "        \x7d",
  "    \x7d",
  "    return r;",
  "\x7d",
  "",
  "\x7d // namespace tsl"]

def preamble : String := String.join (preambleLines.map (· ++ "\n"))

end ShaderForge.Cpp
